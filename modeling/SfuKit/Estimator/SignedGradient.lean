import SfuKit.Model.Bandwidth.Subscriber

/-! # The delay gradients of a feedback batch

`ingest_twcc` takes both differences with `duration_since`, which is zero where it should be
negative. What it feeds the filter is then off by what the packet's arrival and its send time lie
before those of the packet processed last.
-/
namespace SfuKit

/-- Arrival and send time of a received packet. -/
structure Timing where
  arrival : Instant
  sent : Instant
deriving DecidableEq, Repr

namespace Timing

/-- What `ingest_twcc` makes of two packets. -/
def measuredGradient (prev x : Timing) : ℚ :=
  (asMicros (durationSince x.arrival prev.arrival) : ℚ)
    - (asMicros (durationSince x.sent prev.sent) : ℚ)

/-- The whole microseconds from one instant to another, as `as_micros` counts them, with
their sign. -/
def signedMicros (later earlier : Instant) : ℤ := ((later : ℤ) - (earlier : ℤ)).tdiv 1000

def signedGradient (prev x : Timing) : ℚ :=
  ((signedMicros x.arrival prev.arrival - signedMicros x.sent prev.sent : ℤ) : ℚ)

/-- The packet's arrival lies before the other's by as many whole microseconds as its send time
does; none, for packets in order. -/
def RewindsAlike (prev x : Timing) : Prop :=
  asMicros (durationSince prev.arrival x.arrival) = asMicros (durationSince prev.sent x.sent)

instance (prev x : Timing) : Decidable (RewindsAlike prev x) :=
  inferInstanceAs (Decidable (asMicros (durationSince prev.arrival x.arrival) =
    asMicros (durationSince prev.sent x.sent)))

/-- Saturation loses the microseconds of the way back. -/
theorem asMicros_durationSince (later earlier : Instant) :
    (asMicros (durationSince later earlier) : ℤ) =
      signedMicros later earlier + asMicros (durationSince earlier later) := by
  unfold asMicros durationSince signedMicros
  rcases le_total earlier later with h | h
  · have hsub : ((later : ℤ) - (earlier : ℤ)) = ((later - earlier : ℕ) : ℤ) := (Nat.cast_sub h).symm
    rw [hsub, Nat.sub_eq_zero_of_le h, Nat.zero_div, Nat.cast_zero, add_zero]
    rfl
  · have hsub : ((later : ℤ) - (earlier : ℤ)) = -((earlier - later : ℕ) : ℤ) := by
      rw [Nat.cast_sub h]
      ring
    have hdiv : (((earlier - later : ℕ) : ℤ).tdiv 1000) = ((earlier - later) / 1000 : ℕ) := rfl
    rw [hsub, Int.neg_tdiv, hdiv, Nat.sub_eq_zero_of_le h, Nat.zero_div, Nat.cast_zero,
      neg_add_cancel]

theorem measuredGradient_eq_iff (prev x : Timing) :
    measuredGradient prev x = signedGradient prev x ↔ RewindsAlike prev x := by
  have harrival := asMicros_durationSince x.arrival prev.arrival
  have hsent := asMicros_durationSince x.sent prev.sent
  have hcast : measuredGradient prev x =
      (((asMicros (durationSince x.arrival prev.arrival) : ℤ)
        - (asMicros (durationSince x.sent prev.sent) : ℤ) : ℤ) : ℚ) := by
    unfold measuredGradient
    push_cast
    rfl
  rw [hcast, signedGradient, Int.cast_inj, harrival, hsent, RewindsAlike]
  omega

/-- A value for every packet and the one before it, the first of which may be missing. -/
def gradients (f : Timing → Timing → ℚ) : Option Timing → List Timing → List ℚ
  | _, [] => []
  | none, x :: rest => gradients f (some x) rest
  | some prev, x :: rest => f prev x :: gradients f (some x) rest

theorem gradients_eq_iff (f g : Timing → Timing → ℚ) (prev : Option Timing) (l : List Timing) :
    gradients f prev l = gradients g prev l ↔
      (prev.toList ++ l).IsChain fun p x => f p x = g p x := by
  induction l generalizing prev with
  | nil => cases prev <;> simp [gradients]
  | cons x rest ih =>
    have hsome := ih (some x)
    rw [Option.toList_some, List.singleton_append] at hsome
    cases prev with
    | none => exact hsome
    | some p =>
      rw [Option.toList_some, List.singleton_append, List.isChain_cons_cons, ← hsome]
      exact List.cons_eq_cons

end Timing

namespace PerSubscriber

open Timing

/-- The packet of a sample that was received and has a send time on record. -/
def timing (sub : PerSubscriber) (sample : TwccSample) : Option Timing :=
  match sample.arrival, sub.sendTimes.lookup sample.seq with
  | some arrival, some sent => some ⟨arrival, sent⟩
  | _, _ => none

def previous (sub : PerSubscriber) : Option Timing :=
  match sub.lastArrival, sub.lastSendForReceived with
  | some arrival, some sent => some ⟨arrival, sent⟩
  | _, _ => none

/-- What a sample feeds the filter, if anything. -/
def kalmanInput (sub : PerSubscriber) (sample : TwccSample) : Option ℚ :=
  match sub.previous, sub.timing sample with
  | some prev, some x => some (measuredGradient prev x)
  | _, _ => none

/-- Everything a list of samples feeds the filter, in order. -/
def kalmanInputs : PerSubscriber → List TwccSample → List ℚ
  | _, [] => []
  | sub, sample :: rest =>
    (sub.kalmanInput sample).toList ++ kalmanInputs (ingestSample sub sample) rest

theorem ingestSample_sendTimes (sub : PerSubscriber) (sample : TwccSample) :
    (ingestSample sub sample).sendTimes = sub.sendTimes := by
  unfold ingestSample
  dsimp only
  split
  · rfl
  · split <;> rfl

/-- What a sample is the packet of depends on the send times alone. -/
theorem timing_congr {sub sub' : PerSubscriber} (h : sub.sendTimes = sub'.sendTimes) :
    sub.timing = sub'.timing := by
  funext sample
  rw [timing, timing, h]

theorem ingestSample_previous (sub : PerSubscriber) (sample : TwccSample) :
    (ingestSample sub sample).previous = (sub.timing sample).or sub.previous := by
  unfold ingestSample timing
  cases sample.arrival with
  | none => rfl
  | some arrival =>
    dsimp only
    cases sub.sendTimes.lookup sample.seq <;> rfl

theorem ingestSample_delay (sub : PerSubscriber) (sample : TwccSample) :
    (ingestSample sub sample).delay =
      (sub.kalmanInput sample).toList.foldl DelayEstimator.updateKalman sub.delay := by
  unfold ingestSample kalmanInput timing previous
  cases sample.arrival with
  | none =>
    dsimp only
    split <;> simp_all
  | some arrival =>
    dsimp only
    cases sub.sendTimes.lookup sample.seq with
    | none =>
      dsimp only
      split <;> simp_all
    | some sent =>
      cases sub.lastArrival with
      | none => rfl
      | some prevArr => cases sub.lastSendForReceived <;> rfl

/-- The inputs are all that a batch does to the filter before rate control. -/
theorem ingestTwcc_delay (sub : PerSubscriber) (feedback : TwccFeedback) (now : Instant) :
    (ingestTwcc sub feedback now).delay =
      ((sub.kalmanInputs feedback.samples).foldl DelayEstimator.updateKalman
        sub.delay).applyRateControl now := by
  have hfold : ∀ (l : List TwccSample) (sub : PerSubscriber), (l.foldl ingestSample sub).delay =
      (sub.kalmanInputs l).foldl DelayEstimator.updateKalman sub.delay := by
    intro l
    induction l with
    | nil => exact fun _ => rfl
    | cons sample rest ih =>
      intro sub
      rw [List.foldl_cons, ih, kalmanInputs, List.foldl_append, ingestSample_delay]
  exact congrArg (DelayEstimator.applyRateControl · now) (hfold feedback.samples sub)

theorem kalmanInputs_eq (sub : PerSubscriber) (l : List TwccSample) :
    sub.kalmanInputs l = gradients measuredGradient sub.previous (l.filterMap sub.timing) := by
  induction l generalizing sub with
  | nil => cases sub.previous <;> rfl
  | cons sample rest ih =>
    have htiming := timing_congr (ingestSample_sendTimes sub sample)
    rw [kalmanInputs, ih, ingestSample_previous, htiming, List.filterMap_cons, kalmanInput]
    cases sub.timing sample with
    | none => cases sub.previous <;> rfl
    | some x => cases sub.previous <;> rfl

/-- Every value a batch feeds the filter is the signed gradient of a packet and the one processed
before it, exactly when no packet's arrival goes back by more or fewer microseconds than its send
time does. -/
theorem kalman_inputs_signed_iff (sub : PerSubscriber) (feedback : TwccFeedback) :
    sub.kalmanInputs feedback.samples =
        gradients signedGradient sub.previous (feedback.samples.filterMap sub.timing) ↔
      (sub.previous.toList ++ feedback.samples.filterMap sub.timing).IsChain RewindsAlike := by
  rw [kalmanInputs_eq, gradients_eq_iff]
  have hiff : (fun p x => measuredGradient p x = signedGradient p x) = RewindsAlike := by
    funext p x
    exact propext (measuredGradient_eq_iff p x)
  rw [hiff]

/-- Two packets sent 10 ms apart that arrive 10 ms apart the other way round: -10 ms is fed where
the gradient is -20 ms. -/
theorem kalman_inputs_signed_fails :
    let sub := { PerSubscriber.new with
      sendTimes := recordSendTimes (recordSendTimes ∅ 1 0) 2 (fromMillis 10) }
    let samples : List TwccSample := [⟨1, some (fromMillis 30)⟩, ⟨2, some (fromMillis 20)⟩]
    sub.kalmanInputs samples = [-10000] ∧
      gradients signedGradient sub.previous (samples.filterMap sub.timing) = [-20000] := by
  decide +kernel

end PerSubscriber
end SfuKit
