import SfuKit.Estimator.Lifecycle
import SfuKit.Library.Streak

/-! # What the ceilings of a subscriber listen to

Each of the five ceilings is a machine of its own, which some requests about its subscriber feed
and no others. The estimate after any calls is the minimum of what the five have heard.
-/
namespace SfuKit

open Library Run

inductive Request where
  | twccFeedback (feedback : TwccFeedback) (now : Instant)
  | sendTime (seq : ℕ) (sentAt : Instant)
  | nativeEstimate (bps : F64 ℚ)
  | clientHint (bps : ℕ) (now : Instant)
  | enableGoogcc
  | googccReceive (arrivalMs sendMs loss : ℚ)
  | reap

structure EstimatorCall where
  subscriber : ClientId
  request : Request

namespace Request

/-- What a request makes of the entry that `get_or_insert` finds or creates. -/
def apply (s : PerSubscriber) : Request → PerSubscriber
  | twccFeedback feedback now => ingestTwcc s feedback now
  | sendTime seq sentAt => { s with sendTimes := recordSendTimes s.sendTimes seq sentAt }
  | nativeEstimate bps => { s with nativeEstimateBps := some bps }
  | clientHint bps now => { s with clientHint := some ⟨bps, now⟩ }
  | enableGoogcc => { s with googcc := some (s.googcc.getD .new) }
  | googccReceive arrivalMs sendMs loss =>
    { s with googcc := s.googcc.map fun g => (g.onReceive arrivalMs sendMs loss).1 }
  | reap => .new

/-- Whether a request feeds a ceiling. All end with the subscriber. -/
def feeds : Request → BindingTerm → Bool
  | reap, _ => true
  | twccFeedback .., .delay | twccFeedback .., .loss | sendTime .., .delay => true
  | nativeEstimate _, .native | clientHint .., .clientHint => true
  | enableGoogcc, .googCc | googccReceive .., .googCc => true
  | _, _ => false

/-- Whether a request leaves an entry behind that was not there. -/
def creates : Request → Bool
  | googccReceive .. | reap => false
  | _ => true

end Request

namespace EstimatorCall
variable (x : EstimatorCall) (id : ClientId)

def feeds (t : BindingTerm) : Bool := decide (x.subscriber = id) && x.request.feeds t

def creates : Bool := decide (x.subscriber = id) && x.request.creates

def reaps : Prop := x = ⟨id, .reap⟩

end EstimatorCall

namespace PerSubscriber

/-- The part of an entry that a ceiling is computed from, with the rest as in a new entry. -/
def part (s : PerSubscriber) : BindingTerm → PerSubscriber
  | .delay => { s with loss := new.loss, nativeEstimateBps := none, clientHint := none, googcc := none }
  | .loss => { new with loss := s.loss }
  | .native => { new with nativeEstimateBps := s.nativeEstimateBps }
  | .googCc => { new with googcc := s.googcc }
  | .clientHint => { new with clientHint := s.clientHint }

theorem ingestSample_part_delay (s : PerSubscriber) (x : TwccSample) :
    (ingestSample s x).part .delay = (ingestSample (s.part .delay) x).part .delay := by
  simp only [ingestSample, part]
  cases x.arrival with
  | none => rfl
  | some arrival =>
    dsimp only
    cases s.sendTimes.lookup x.seq <;> rfl

theorem ingestSample_part_loss (s : PerSubscriber) (x : TwccSample) :
    (ingestSample s x).part .loss = (ingestSample (s.part .loss) x).part .loss := by
  have hloss : ∀ s : PerSubscriber, (ingestSample s x).loss = s.loss.record x.arrival.isSome := by
    intro s
    unfold ingestSample
    dsimp only
    repeat' split
    all_goals rfl
  simp only [part, hloss]

theorem ingestSamples_part {t : BindingTerm}
    (hsample : ∀ s x, (ingestSample s x).part t = (ingestSample (s.part t) x).part t)
    (s : PerSubscriber) (l : List TwccSample) :
    (l.foldl ingestSample s).part t = (l.foldl ingestSample (s.part t)).part t := by
  have hidem : (s.part t).part t = s.part t := by cases t <;> rfl
  have hstep : ∀ s s' x, s.part t = s'.part t →
      (ingestSample s x).part t = (ingestSample s' x).part t := by
    intro s s' x h
    rw [hsample, h, ← hsample]
  have hrun := run_related (f := id) hstep hidem.symm l
  rwa [List.map_id] at hrun

theorem ingestTwcc_part_delay (s : PerSubscriber) (feedback : TwccFeedback) (now : Instant) :
    (ingestTwcc s feedback now).part .delay = (ingestTwcc (s.part .delay) feedback now).part .delay := by
  have hsamples := ingestSamples_part ingestSample_part_delay s feedback.samples
  simp only [part, mk.injEq] at hsamples
  obtain ⟨hsends, harrival, hsend, hdelay, -, hrtt, -⟩ := hsamples
  simp only [ingestTwcc, part, mk.injEq, and_true, true_and]
  refine ⟨hsends, harrival, hsend, ?_, hrtt⟩
  rw [hdelay]

theorem ingestTwcc_part_loss (s : PerSubscriber) (feedback : TwccFeedback) (now : Instant) :
    (ingestTwcc s feedback now).part .loss = (ingestTwcc (s.part .loss) feedback now).part .loss := by
  have hsamples := ingestSamples_part ingestSample_part_loss s feedback.samples
  have hloss := congrArg loss hsamples
  simp only [ingestTwcc, part] at hloss ⊢
  rw [hloss]

theorem ingestTwcc_part_of_ne {t : BindingTerm} (hd : t ≠ .delay) (hl : t ≠ .loss)
    (s : PerSubscriber) (feedback : TwccFeedback) (now : Instant) :
    (ingestTwcc s feedback now).part t = s.part t := by
  have hsample : ∀ s x, (ingestSample s x).part t = s.part t := by
    intro s x
    unfold ingestSample
    dsimp only
    repeat' split
    all_goals cases t <;> first | rfl | contradiction
  have hkeep : ∀ s' x, s'.part t = s.part t → (ingestSample s' x).part t = s.part t :=
    fun s' x h => (hsample s' x).trans h
  have hrun : (run ingestSample s feedback.samples).part t = s.part t :=
    invariant_all hkeep feedback.samples rfl
  rw [← hrun]
  cases t <;> first | rfl | contradiction

/-- A request works on the parts that it feeds, each by itself, and on no others. -/
theorem part_apply (s : PerSubscriber) (r : Request) (t : BindingTerm) :
    (r.apply s).part t = if r.feeds t then (r.apply (s.part t)).part t else s.part t := by
  cases r with
  | twccFeedback feedback now =>
    cases t with
    | delay => exact ingestTwcc_part_delay s feedback now
    | loss => exact ingestTwcc_part_loss s feedback now
    | _ => exact ingestTwcc_part_of_ne (by decide) (by decide) s feedback now
  | _ => cases t <;> rfl

end PerSubscriber

namespace BandwidthEstimator

def call (b : BandwidthEstimator) (x : EstimatorCall) : BandwidthEstimator :=
  match x.request with
  | .twccFeedback feedback now => b.onTwccFeedback x.subscriber feedback now
  | .sendTime seq sentAt => b.recordSendTime x.subscriber seq sentAt
  | .nativeEstimate bps => b.recordNativeEstimate x.subscriber bps
  | .clientHint bps now => b.recordClientHint x.subscriber bps now
  | .enableGoogcc => b.enableGoogccForSubscriber x.subscriber
  | .googccReceive arrivalMs sendMs loss => b.googccOnReceive x.subscriber arrivalMs sendMs loss
  | .reap => b.reapDead x.subscriber

def calls (b : BandwidthEstimator) (l : List EstimatorCall) : BandwidthEstimator := run call b l

theorem calls_append (b : BandwidthEstimator) (l m : List EstimatorCall) :
    b.calls (l ++ m) = (b.calls l).calls m := run_append call b l m

theorem calls_flatMap {α : Type*} (read : α → List EstimatorCall) (b : BandwidthEstimator)
    (l : List α) : b.calls (l.flatMap read) = l.foldl (fun b a => b.calls (read a)) b := by
  induction l generalizing b with
  | nil => rfl
  | cons a l ih => rw [List.flatMap_cons, calls_append, ih, List.foldl_cons]

theorem getOrInsert_modify (b : BandwidthEstimator) (id other : ClientId)
    (f : PerSubscriber → PerSubscriber) : (b.modify id f).getOrInsert other =
      if other = id then f (b.getOrInsert id) else b.getOrInsert other := by
  rw [getOrInsert, lookup_modify]
  split_ifs <;> rfl

theorem getOrInsert_call (b : BandwidthEstimator) (x : EstimatorCall) (id : ClientId) :
    (b.call x).getOrInsert id =
      if id = x.subscriber then x.request.apply (b.getOrInsert x.subscriber)
      else b.getOrInsert id := by
  obtain ⟨peer, r⟩ := x
  cases r with
  | googccReceive arrivalMs sendMs loss =>
    simp only [call, getOrInsert, lookup_googccOnReceive]
    split_ifs
    · cases b.subscribers.lookup peer <;> rfl
    · rfl
  | reap =>
    simp only [call, getOrInsert, lookup_reapDead]
    split_ifs <;> rfl
  | _ => exact b.getOrInsert_modify peer id _

theorem part_call (b : BandwidthEstimator) (x : EstimatorCall) (id : ClientId) (t : BindingTerm) :
    ((b.call x).getOrInsert id).part t =
      if x.feeds id t then (x.request.apply ((b.getOrInsert id).part t)).part t
      else (b.getOrInsert id).part t := by
  rw [getOrInsert_call]
  by_cases hid : x.subscriber = id
  · subst hid
    rw [if_pos rfl, PerSubscriber.part_apply]
    simp [EstimatorCall.feeds]
  · rw [if_neg (Ne.symm hid)]
    simp [EstimatorCall.feeds, hid]

/-- The entry that the calls for one ceiling of a subscriber would make without the others. -/
def heard (l : List EstimatorCall) (id : ClientId) (t : BindingTerm) : PerSubscriber :=
  (new.calls (l.filter (·.feeds id t))).getOrInsert id

theorem part_run (l : List EstimatorCall) (id : ClientId) (t : BindingTerm) :
    ((new.calls l).getOrInsert id).part t = (heard l id t).part t :=
  view_run_filter (fun b : BandwidthEstimator => (b.getOrInsert id).part t)
    (fun s x => (x.request.apply s).part t) _ (fun b x => b.part_call x id t) new l

theorem mem_keys_call (b : BandwidthEstimator) (x : EstimatorCall) (id : ClientId) :
    id ∈ (b.call x).keys ↔ x.creates id ∨ id ∈ b.keys ∧ ¬ x.reaps id := by
  obtain ⟨peer, r⟩ := x
  cases r with
  | googccReceive arrivalMs sendMs loss =>
    simp [call, EstimatorCall.creates, EstimatorCall.reaps, Request.creates]
  | reap =>
    simp [call, mem_keys_reapDead, EstimatorCall.creates, EstimatorCall.reaps, Request.creates,
      and_comm, eq_comm]
  | _ =>
    refine (b.mem_keys_modify peer id _).trans ?_
    simp [EstimatorCall.creates, EstimatorCall.reaps, Request.creates, eq_comm]

/-- A subscriber has an entry if some call created it and no sweep has reaped it since. -/
def Known (l : List EstimatorCall) (id : ClientId) : Prop :=
  Streak.Latched (fun x : EstimatorCall => x.creates id) (fun x => ¬ x.reaps id) 1 l

theorem mem_keys_run (l : List EstimatorCall) (id : ClientId) :
    id ∈ (new.calls l).keys ↔ Known l id := by
  unfold calls
  induction l using List.reverseRecOn with
  | nil => exact iff_of_false (fun h => by cases h) (Streak.latched_nil _ Nat.one_pos)
  | append_singleton l x ih =>
    rw [run_concat, mem_keys_call, ih, Known, Known, Streak.latched_concat, Streak.trailing_concat]
    by_cases hx : x.creates id
    · simp [hx]
    · simp [hx]

/-- The lowest of what the five ceilings of a subscriber have heard, with its term. -/
def lowest (l : List EstimatorCall) (id : ClientId) (now : Instant) : ℚ × BindingTerm :=
  combineTerms (.num (heard l id .delay).delay.bitrateBps)
    (.num (heard l id .loss).loss.bitrateBps) (heard l id .native).nativeEstimateBps
    ((heard l id .googCc).googcc.map fun g => .num (g.currentBps : ℚ))
    (((heard l id .clientHint).freshHint now).map fun b : ℕ => .num (b : ℚ))

/-- There is an estimate exactly for a subscriber that is known, and it is the lowest of the five
ceilings. -/
theorem estimateWithTerm_calls (l : List EstimatorCall) (id : ClientId) (now : Instant)
    (e : ℕ × BindingTerm) : (new.calls l).estimateWithTerm id now = some e ↔
      Known l id ∧ e = (asU64 (lowest l id now).1, (lowest l id now).2) := by
  have hdelay := congrArg PerSubscriber.delay (part_run l id .delay)
  have hloss := congrArg PerSubscriber.loss (part_run l id .loss)
  have hnative := congrArg PerSubscriber.nativeEstimateBps (part_run l id .native)
  have hgoogcc := congrArg PerSubscriber.googcc (part_run l id .googCc)
  have hhint := congrArg PerSubscriber.clientHint (part_run l id .clientHint)
  simp only [PerSubscriber.part] at hdelay hloss hnative hgoogcc hhint
  have hfresh : ((new.calls l).getOrInsert id).freshHint now =
      (heard l id .clientHint).freshHint now := by
    unfold PerSubscriber.freshHint
    rw [hhint]
  rw [lowest, ← mem_keys_run, mem_keys, ← hdelay, ← hloss, ← hnative, ← hgoogcc, ← hfresh]
  unfold estimateWithTerm getOrInsert
  cases (new.calls l).subscribers.lookup id with
  | none => simp
  | some s =>
    simp only [Option.map_some, Option.some_inj, Option.isSome_some, true_and, Option.getD_some]
    exact eq_comm

end BandwidthEstimator
end SfuKit
