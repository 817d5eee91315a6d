import SfuKit.Model.Bandwidth.RateControl
import SfuKit.Model.Bandwidth.GoogCc
import Mathlib.Data.List.AList

/-! # Per-subscriber estimates and the room's bandwidth estimator

`PerSubscriber` joins the delay, loss, native, GoogCC and client-hint signals
of one peer, `combineTerms` is their minimum, `ingestTwcc` feeds a feedback
batch, and `BandwidthEstimator` keeps one `PerSubscriber` for each peer.
-/
namespace SfuKit

/-- Which ceiling produced the winning minimum, in the order of application. -/
inductive BindingTerm where
  | delay
  | loss
  | native
  | googCc
  | clientHint
deriving DecidableEq, Repr

/-- An `f64` with exact values: a number, or NaN. -/
inductive F64 (α : Type*) where
  | nan
  | num (a : α)
deriving DecidableEq, Repr

namespace F64
variable {α : Type*}

def isNan : F64 α → Bool
  | nan => true
  | num _ => false

variable [LinearOrder α]

/-- `<` of `f64`: false as soon as one side is NaN. -/
def lt : F64 α → F64 α → Bool
  | num a, num b => decide (a < b)
  | _, _ => false

/-- `f64::max`, which drops NaN, against a number. -/
def maxNum (x : F64 α) (b : α) : α :=
  match x with
  | nan => b
  | num a => max a b

end F64

section CombineTerms
variable {α : Type*} [LinearOrder α]

/-- `min_update`: keep the running minimum and the term that produced it. -/
def minUpdate (best : F64 α × BindingTerm) (cand : F64 α) (candTerm : BindingTerm) :
    F64 α × BindingTerm :=
  if best.1.isNan || cand.lt best.1 then (cand, candTerm) else best

/-- `min_update` under `if let Some`. -/
def minUpdateOpt (best : F64 α × BindingTerm) (cand : Option (F64 α)) (candTerm : BindingTerm) :
    F64 α × BindingTerm :=
  match cand with
  | some c => minUpdate best c candTerm
  | none => best

def combineTerms [Zero α] (delay loss : F64 α) (native googcc hint : Option (F64 α)) :
    α × BindingTerm :=
  let best := minUpdate (delay, .delay) loss .loss
  let best := minUpdateOpt best native .native
  let best := minUpdateOpt best googcc .googCc
  let best := minUpdateOpt best hint .clientHint
  (best.1.maxNum 0, best.2)

end CombineTerms

structure ClientHint where
  bps : ℕ
  receivedAt : Instant
deriving DecidableEq, Repr

def initialBitrateBps : ℚ := 300000
def clientHintMaxAge : Duration := fromSecs 5

/-- Per-subscriber state of the bandwidth estimator. -/
structure PerSubscriber where
  sendTimes : AList (fun _ : ℕ => Instant)
  lastArrival : Option Instant
  lastSendForReceived : Option Instant
  delay : DelayEstimator
  loss : LossEstimator
  rtt : Option Duration
  nativeEstimateBps : Option (F64 ℚ)
  clientHint : Option ClientHint
  googcc : Option GoogCcEstimator

namespace PerSubscriber

def new : PerSubscriber where
  sendTimes := ∅
  lastArrival := none
  lastSendForReceived := none
  delay := .new initialBitrateBps
  loss := .new initialBitrateBps
  rtt := none
  nativeEstimateBps := none
  clientHint := none
  googcc := none

/-- The budget of a hint that is younger than `CLIENT_HINT_MAX_AGE`. -/
def freshHint (s : PerSubscriber) (now : Instant) : Option ℕ :=
  match s.clientHint with
  | some h => if durationSince now h.receivedAt < clientHintMaxAge then some h.bps else none
  | none => none

/-- The body of `combined_bps_with_term` for any rates of the delay and the loss estimator, which
are NaN if these were made with NaN. -/
def combinedWithRates (s : PerSubscriber) (delay loss : F64 ℚ) (now : Instant) :
    ℚ × BindingTerm :=
  combineTerms delay loss s.nativeEstimateBps (s.googcc.map fun g => .num (g.currentBps : ℚ))
    ((s.freshHint now).map fun b : ℕ => .num (b : ℚ))

def combinedBpsWithTerm (s : PerSubscriber) (now : Instant) : ℚ × BindingTerm :=
  s.combinedWithRates (.num s.delay.bitrateBps) (.num s.loss.bitrateBps) now

def combinedBps (s : PerSubscriber) (now : Instant) : ℚ := (s.combinedBpsWithTerm now).1

end PerSubscriber

/-- One packet record of a TWCC feedback report. -/
structure TwccSample where
  seq : ℕ
  arrival : Option Instant
deriving DecidableEq, Repr

structure TwccFeedback where
  samples : List TwccSample
deriving DecidableEq, Repr

/-- The body of the loop of `ingest_twcc`. -/
def ingestSample (sub : PerSubscriber) (sample : TwccSample) : PerSubscriber :=
  let sub := { sub with loss := sub.loss.record sample.arrival.isSome }
  match sample.arrival with
  | none => sub
  | some arrival =>
    match sub.sendTimes.lookup sample.seq with
    | none => sub
    | some sendT =>
      let delay :=
        match sub.lastArrival, sub.lastSendForReceived with
        | some prevArr, some prevSend =>
          sub.delay.updateKalman ((asMicros (durationSince arrival prevArr) : ℚ)
            - (asMicros (durationSince sendT prevSend) : ℚ))
        | _, _ => sub.delay
      { sub with delay
                 lastArrival := some arrival
                 lastSendForReceived := some sendT
                 rtt := some (durationSince arrival sendT * 2) }

/-- `ingest_twcc`: every sample in order, then rate control on both estimators. -/
def ingestTwcc (sub : PerSubscriber) (feedback : TwccFeedback) (now : Instant) : PerSubscriber :=
  let sub := feedback.samples.foldl ingestSample sub
  { sub with delay := sub.delay.applyRateControl now
             loss := sub.loss.applyRateControl now }

def maxSendTimes : ℕ := 512

/-- `record_send_time` on the map of one subscriber. -/
def recordSendTimes (m : AList (fun _ : ℕ => Instant)) (seq : ℕ) (sentAt : Instant) :
    AList (fun _ : ℕ => Instant) :=
  let m :=
    if maxSendTimes ≤ m.entries.length then
      match m.keys.min? with
      | some oldestSeq => m.erase oldestSeq
      | none => m
    else m
  m.insert seq sentAt

structure BandwidthEstimator where
  subscribers : AList (fun _ : ClientId => PerSubscriber)

namespace BandwidthEstimator

def new : BandwidthEstimator := ⟨∅⟩

def keys (b : BandwidthEstimator) : List ClientId := b.subscribers.keys

/-- The entry `get_or_insert` returns a reference to. -/
def getOrInsert (b : BandwidthEstimator) (id : ClientId) : PerSubscriber :=
  (b.subscribers.lookup id).getD .new

/-- `get_or_insert(id)` followed by an update through the reference. -/
def modify (b : BandwidthEstimator) (id : ClientId) (f : PerSubscriber → PerSubscriber) :
    BandwidthEstimator :=
  ⟨b.subscribers.insert id (f (b.getOrInsert id))⟩

def recordNativeEstimate (b : BandwidthEstimator) (subscriber : ClientId) (bps : F64 ℚ) :
    BandwidthEstimator :=
  b.modify subscriber fun s => { s with nativeEstimateBps := some bps }

def recordClientHint (b : BandwidthEstimator) (subscriber : ClientId) (bps : ℕ) (now : Instant) :
    BandwidthEstimator :=
  b.modify subscriber fun s => { s with clientHint := some ⟨bps, now⟩ }

def estimateWithTerm (b : BandwidthEstimator) (subscriber : ClientId) (now : Instant) :
    Option (ℕ × BindingTerm) :=
  (b.subscribers.lookup subscriber).map fun s =>
    (asU64 (s.combinedBpsWithTerm now).1, (s.combinedBpsWithTerm now).2)

def googccActive (b : BandwidthEstimator) (id : ClientId) : Bool :=
  (b.subscribers.lookup id).any fun s => s.googcc.isSome

def reapDead (b : BandwidthEstimator) (subscriber : ClientId) : BandwidthEstimator :=
  ⟨b.subscribers.erase subscriber⟩

def enableGoogccForSubscriber (b : BandwidthEstimator) (id : ClientId) : BandwidthEstimator :=
  b.modify id fun s => { s with googcc := some (s.googcc.getD .new) }

/-- `googcc_for_subscriber_mut(id)` and, when it is there, one `on_receive`. -/
def googccOnReceive (b : BandwidthEstimator) (id : ClientId) (arrivalMs sendMs loss : ℚ) :
    BandwidthEstimator :=
  match b.subscribers.lookup id with
  | some s =>
    let googcc := s.googcc.map fun g => (g.onReceive arrivalMs sendMs loss).1
    ⟨b.subscribers.insert id { s with googcc }⟩
  | none => b

def onTwccFeedback (b : BandwidthEstimator) (subscriber : ClientId) (feedback : TwccFeedback)
    (now : Instant) : BandwidthEstimator :=
  b.modify subscriber fun s => ingestTwcc s feedback now

def recordSendTime (b : BandwidthEstimator) (subscriber : ClientId) (seq : ℕ) (sentAt : Instant) :
    BandwidthEstimator :=
  b.modify subscriber fun s => { s with sendTimes := recordSendTimes s.sendTimes seq sentAt }

section Lemmas
variable (b : BandwidthEstimator) (id other : ClientId)

theorem lookup_modify (f : PerSubscriber → PerSubscriber) :
    (b.modify id f).subscribers.lookup other =
      if other = id then some (f (b.getOrInsert id)) else b.subscribers.lookup other := by
  unfold modify
  split_ifs with h
  · rw [h, AList.lookup_insert]
  · exact AList.lookup_insert_ne h

theorem lookup_reapDead :
    (b.reapDead id).subscribers.lookup other =
      if other = id then none else b.subscribers.lookup other := by
  unfold reapDead
  split_ifs with h
  · rw [h, AList.lookup_erase]
  · exact AList.lookup_erase_ne h

theorem lookup_googccOnReceive (a s l : ℚ) :
    (b.googccOnReceive id a s l).subscribers.lookup other =
      if other = id then (b.subscribers.lookup id).map fun p =>
        { p with googcc := p.googcc.map fun g => (g.onReceive a s l).1 }
      else b.subscribers.lookup other := by
  unfold googccOnReceive
  split_ifs with h
  · subst h
    cases hl : b.subscribers.lookup other with
    | none => exact hl
    | some p => exact AList.lookup_insert _
  · split
    · exact AList.lookup_insert_ne h
    · rfl

theorem mem_keys : other ∈ b.keys ↔ (b.subscribers.lookup other).isSome :=
  AList.lookup_isSome.symm

theorem mem_keys_modify (f : PerSubscriber → PerSubscriber) :
    other ∈ (b.modify id f).keys ↔ other = id ∨ other ∈ b.keys := by
  rw [mem_keys, mem_keys, lookup_modify]
  split_ifs with h <;> simp [h]

theorem mem_keys_reapDead :
    other ∈ (b.reapDead id).keys ↔ other ≠ id ∧ other ∈ b.keys := by
  rw [mem_keys, mem_keys, lookup_reapDead]
  split_ifs with h <;> simp [h]

@[simp] theorem mem_keys_googccOnReceive (a s l : ℚ) :
    other ∈ (b.googccOnReceive id a s l).keys ↔ other ∈ b.keys := by
  rw [mem_keys, mem_keys, lookup_googccOnReceive]
  split_ifs with h
  · rw [h, Option.isSome_map]
  · rfl

end Lemmas
end BandwidthEstimator
end SfuKit
