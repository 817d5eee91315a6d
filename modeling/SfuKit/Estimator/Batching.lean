import SfuKit.Estimator.GradientFilter
import SfuKit.Estimator.SignedGradient

/-! # What feedback batches do to the delay filter

Only packets that were received and have a send time on record reach the filter, one by one and
each against the one before. Lost packets, unknown ones and the ends of the batches leave no
trace in it.
-/
namespace SfuKit

open Library Run PerSubscriber

/-- The filter of a subscriber, and what it remembers of the packet processed last. -/
structure DelaySignal where
  estimate : Kalman.Estimate ℚ
  lastArrival : Option Instant
  lastSendForReceived : Option Instant
  rtt : Option Duration

def DelaySignal.absorb (s : DelaySignal) (x : Timing) : DelaySignal where
  estimate :=
    match s.lastArrival, s.lastSendForReceived with
    | some arrival, some sent =>
      Kalman.update DelayEstimator.noise s.estimate (Timing.measuredGradient ⟨arrival, sent⟩ x)
    | _, _ => s.estimate
  lastArrival := some x.arrival
  lastSendForReceived := some x.sent
  rtt := some (durationSince x.arrival x.sent * 2)

namespace PerSubscriber

def delaySignal (sub : PerSubscriber) : DelaySignal where
  estimate := sub.delay.estimate
  lastArrival := sub.lastArrival
  lastSendForReceived := sub.lastSendForReceived
  rtt := sub.rtt

/-- The sample is of a packet that was received and has a send time on record. -/
def usable (sub : PerSubscriber) (sample : TwccSample) : Bool :=
  sample.arrival.isSome && (sub.sendTimes.lookup sample.seq).isSome

/-- The batches one after the other, each with the instant of its rate control. -/
def ingestBatches (sub : PerSubscriber) (batches : List (TwccFeedback × Instant)) : PerSubscriber :=
  run (fun sub b => ingestTwcc sub b.1 b.2) sub batches

theorem delaySignal_ingestSample (sub : PerSubscriber) (sample : TwccSample) :
    (ingestSample sub sample).delaySignal =
      run DelaySignal.absorb sub.delaySignal (sub.timing sample).toList := by
  unfold ingestSample timing
  cases sample.arrival with
  | none => rfl
  | some arrival =>
    dsimp only
    cases sub.sendTimes.lookup sample.seq with
    | none => rfl
    | some sent =>
      unfold delaySignal
      dsimp only
      cases sub.lastArrival with
      | none => rfl
      | some prevArr => cases sub.lastSendForReceived <;> rfl

theorem filterMap_timing (sub : PerSubscriber) (l : List TwccSample) :
    l.filterMap sub.timing = (l.filter sub.usable).filterMap sub.timing := by
  rw [List.filterMap_filter]
  congr 1
  funext sample
  unfold usable timing
  cases sample.arrival with
  | none => rfl
  | some arrival => cases sub.sendTimes.lookup sample.seq <;> rfl

theorem ingestTwcc_sendTimes (sub : PerSubscriber) (feedback : TwccFeedback) (now : Instant) :
    (ingestTwcc sub feedback now).sendTimes = sub.sendTimes := by
  have hkept : ∀ s sample, s.sendTimes = sub.sendTimes →
      (ingestSample s sample).sendTimes = sub.sendTimes :=
    fun s sample h => (ingestSample_sendTimes s sample).trans h
  exact invariant_all hkept feedback.samples rfl

/-- Rate control leaves the filter alone, so a batch does to it what its samples do. -/
theorem delaySignal_ingestTwcc (sub : PerSubscriber) (feedback : TwccFeedback) (now : Instant) :
    (ingestTwcc sub feedback now).delaySignal =
      run DelaySignal.absorb sub.delaySignal (feedback.samples.filterMap sub.timing) := by
  have hcontrol : (ingestTwcc sub feedback now).delaySignal =
      (run ingestSample sub feedback.samples).delaySignal := by
    have hestimate := DelayEstimator.estimate_applyRateControl
      (run ingestSample sub feedback.samples).delay now
    rw [delaySignal, delaySignal, ← hestimate]
    rfl
  have hkept : ∀ s sample, s.sendTimes = sub.sendTimes →
      (ingestSample s sample).sendTimes = sub.sendTimes :=
    fun s sample h => (ingestSample_sendTimes s sample).trans h
  rw [hcontrol, List.filterMap_eq_flatMap_toList]
  refine view_run hkept ?_ rfl feedback.samples
  intro s sample h
  rw [delaySignal_ingestSample, timing_congr h]

theorem delaySignal_ingestBatches (sub : PerSubscriber)
    (batches : List (TwccFeedback × Instant)) :
    (sub.ingestBatches batches).delaySignal =
      run DelaySignal.absorb sub.delaySignal
        (((batches.flatMap fun b => b.1.samples).filter sub.usable).filterMap sub.timing) := by
  have hkept : ∀ (s : PerSubscriber) (b : TwccFeedback × Instant), s.sendTimes = sub.sendTimes →
      (ingestTwcc s b.1 b.2).sendTimes = sub.sendTimes :=
    fun s b h => (ingestTwcc_sendTimes s b.1 b.2).trans h
  rw [← filterMap_timing, List.filterMap_flatMap]
  refine view_run hkept ?_ rfl batches
  intro s b h
  rw [delaySignal_ingestTwcc, timing_congr h]

/-- Two sequences of batches with the same usable samples leave the same filter behind. -/
theorem ingestBatches_eq (sub : PerSubscriber) (b₁ b₂ : List (TwccFeedback × Instant))
    (h : (b₁.flatMap fun b => b.1.samples).filter sub.usable =
      (b₂.flatMap fun b => b.1.samples).filter sub.usable) :
    let s₁ := sub.ingestBatches b₁
    let s₂ := sub.ingestBatches b₂
    s₁.delay.gradientUs = s₂.delay.gradientUs ∧ s₁.delay.gradientVar = s₂.delay.gradientVar ∧
      s₁.lastArrival = s₂.lastArrival ∧ s₁.lastSendForReceived = s₂.lastSendForReceived ∧
      s₁.rtt = s₂.rtt := by
  intro s₁ s₂
  have hsignal : s₁.delaySignal = s₂.delaySignal := by
    rw [delaySignal_ingestBatches, delaySignal_ingestBatches, h]
  obtain ⟨hestimate, harrival, hsend, hrtt⟩ := DelaySignal.mk.inj hsignal
  obtain ⟨hgradient, hvar⟩ := Kalman.Estimate.mk.inj hestimate
  exact ⟨hgradient, hvar, harrival, hsend, hrtt⟩

/-- One batch with a lost packet and an unknown one, and two batches without them. -/
theorem ingestBatches_eq_split :
    let sub := { PerSubscriber.new with
      sendTimes := recordSendTimes (recordSendTimes ∅ 1 0) 3 (fromMillis 20) }
    let b₁ : List (TwccFeedback × Instant) := [(⟨[⟨1, some (fromMillis 5)⟩, ⟨2, none⟩,
      ⟨3, some (fromMillis 60)⟩, ⟨9, some (fromMillis 61)⟩]⟩, fromMillis 70)]
    let b₂ : List (TwccFeedback × Instant) := [(⟨[⟨1, some (fromMillis 5)⟩]⟩, fromMillis 10),
      (⟨[⟨3, some (fromMillis 60)⟩]⟩, fromMillis 65)]
    (b₁.flatMap fun b => b.1.samples).filter sub.usable =
        (b₂.flatMap fun b => b.1.samples).filter sub.usable ∧
      (sub.ingestBatches b₁).delay.gradientUs = (sub.ingestBatches b₂).delay.gradientUs := by
  intro sub b₁ b₂
  have h : (b₁.flatMap fun b => b.1.samples).filter sub.usable =
      (b₂.flatMap fun b => b.1.samples).filter sub.usable := by decide +kernel
  exact ⟨h, (ingestBatches_eq sub b₁ b₂ h).1⟩

end PerSubscriber
end SfuKit
