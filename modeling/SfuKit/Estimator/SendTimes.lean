import SfuKit.Library.BoundedMap
import SfuKit.Library.Run
import SfuKit.Model.Bandwidth.Subscriber

/-! # What recording a send time loses

The map of send times of a subscriber is bounded, and `record_send_time` makes room in a full
one before it looks whether the sequence number is new.
-/
namespace SfuKit

open Library Run BoundedMap

theorem recordSendTimes_eq (m : AList fun _ : ℕ => Instant) (seq : ℕ) (sentAt : Instant) :
    recordSendTimes m seq sentAt = record maxSendTimes m seq sentAt := by
  unfold recordSendTimes record victim
  dsimp only
  split_ifs
  · cases m.keys.min? <;> rfl
  · rfl

structure SendTime where
  subscriber : ClientId
  seq : ℕ
  sentAt : Instant

namespace BandwidthEstimator

def sendTimes (b : BandwidthEstimator) (id : ClientId) : AList fun _ : ℕ => Instant :=
  (b.getOrInsert id).sendTimes

def record (b : BandwidthEstimator) (x : SendTime) : BandwidthEstimator :=
  b.recordSendTime x.subscriber x.seq x.sentAt

theorem sendTimes_record (b : BandwidthEstimator) (x : SendTime) (id : ClientId) :
    (b.record x).sendTimes id =
      if id = x.subscriber then
        BoundedMap.record maxSendTimes (b.sendTimes x.subscriber) x.seq x.sentAt
      else b.sendTimes id := by
  rw [← recordSendTimes_eq]
  unfold record recordSendTime sendTimes
  rw [getOrInsert, lookup_modify]
  split_ifs <;> rfl

/-- Every map of send times keeps its bound. -/
def SendTimesBounded (b : BandwidthEstimator) : Prop :=
  ∀ id, (b.sendTimes id).entries.length ≤ 512

theorem SendTimesBounded.record {b : BandwidthEstimator} (h : b.SendTimesBounded) (x : SendTime) :
    (b.record x).SendTimesBounded := by
  intro id
  rw [sendTimes_record]
  split_ifs
  · exact length_record_le maxSendTimes _ x.seq x.sentAt (by decide) (h x.subscriber)
  · exact h id

/-- What is expected of a call: the map keeps its bound and has the new pair, and the other
entries stay, unless the number is new to a full map, which then loses its smallest number. -/
def Recorded (b : BandwidthEstimator) (x : SendTime) : Prop :=
  let before := b.sendTimes x.subscriber
  let after := (b.record x).sendTimes x.subscriber
  after.entries.length ≤ 512 ∧ after.lookup x.seq = some x.sentAt ∧
    ∀ seq ≠ x.seq, after.lookup seq =
      if x.seq ∉ before ∧ 512 ≤ before.entries.length ∧ before.keys.min? = some seq then none
      else before.lookup seq

/-- The call does not record anew, in a full map, a number other than the smallest. -/
def NoNeedlessEviction (b : BandwidthEstimator) (x : SendTime) : Prop :=
  let before := b.sendTimes x.subscriber
  x.seq ∈ before → 512 ≤ before.entries.length → before.keys.min? = some x.seq

theorem victim_eq_some_iff (m : AList fun _ : ℕ => Instant) (seq : ℕ) :
    victim maxSendTimes m = some seq ↔ 512 ≤ m.entries.length ∧ m.keys.min? = some seq := by
  unfold victim maxSendTimes
  split_ifs with h
  · exact (and_iff_right h).symm
  · exact iff_of_false (fun hc => by cases hc) fun hc => h hc.1

theorem recorded_iff {b : BandwidthEstimator} (h : b.SendTimesBounded) (x : SendTime) :
    b.Recorded x ↔ b.NoNeedlessEviction x := by
  have hafter : (b.record x).sendTimes x.subscriber =
      BoundedMap.record maxSendTimes (b.sendTimes x.subscriber) x.seq x.sentAt := by
    rw [sendTimes_record, if_pos rfl]
  have hlen := h.record x x.subscriber
  have hfrugal := frugal_record_iff maxSendTimes (b.sendTimes x.subscriber) x.seq x.sentAt
  simp only [Frugal, victim_eq_some_iff] at hfrugal
  rw [hafter] at hlen
  simp only [Recorded, NoNeedlessEviction, hafter, lookup_record_self, hlen, true_and, hfrugal]
  apply imp_congr_right
  intro hmem
  constructor
  · intro h hfull
    obtain ⟨o, ho⟩ := exists_victim maxSendTimes (b.sendTimes x.subscriber) (by decide) hfull
    have hmin := (victim_eq_some_iff _ o).mp ho
    rw [hmin.2, h o hmin]
  · rintro h o ⟨hfull, hmin⟩
    exact Option.some.inj (hmin.symm.trans (h hfull))

theorem new_sendTimesBounded : new.SendTimesBounded := fun _ => Nat.zero_le _

theorem sendTimesBounded_run (calls : List SendTime) :
    (run record new calls).SendTimesBounded := by
  have hstep : ∀ (b : BandwidthEstimator) (x : SendTime), b.SendTimesBounded →
      (b.record x).SendTimesBounded := fun b x h => h.record x
  exact invariant_all hstep calls new_sendTimesBounded

/-- Over any calls every map keeps its bound and has the pair recorded last; and nothing else is
lost without need exactly when no call records anew, in a full map, a number other than the
smallest. -/
theorem recorded_run_iff (calls : List SendTime) :
    Along record (fun b x => ((b.record x).sendTimes x.subscriber).entries.length ≤ 512 ∧
      ((b.record x).sendTimes x.subscriber).lookup x.seq = some x.sentAt) new calls ∧
    (Along record Recorded new calls ↔ Along record NoNeedlessEviction new calls) := by
  constructor
  · rw [along_iff]
    intro pre x post _
    refine ⟨(sendTimesBounded_run pre).record x x.subscriber, ?_⟩
    rw [sendTimes_record, if_pos rfl, lookup_record_self]
  · have hiff : ∀ (b : BandwidthEstimator) (x : SendTime), b.SendTimesBounded →
        (b.Recorded x ↔ b.NoNeedlessEviction x) := fun b x h => recorded_iff h x
    have hkeep : ∀ (b : BandwidthEstimator) (x : SendTime), b.SendTimesBounded → b.Recorded x →
        (b.record x).SendTimesBounded := fun b x h _ => h.record x
    exact along_congr hiff hkeep new_sendTimesBounded calls

def ascending (n : ℕ) : List SendTime := (List.range n).map fun seq => ⟨⟨0⟩, seq, seq⟩

theorem keys_ascending {n : ℕ} (hn : n ≤ 512) :
    ((run record new (ascending n)).sendTimes ⟨0⟩).keys = (List.range n).reverse := by
  induction n with
  | zero => rfl
  | succ n ih =>
    have hkeys := ih (by omega)
    have hlen := length_keys ((run record new (ascending n)).sendTimes ⟨0⟩)
    rw [hkeys, List.length_reverse, List.length_range] at hlen
    have hroom : victim maxSendTimes ((run record new (ascending n)).sendTimes ⟨0⟩) = none := by
      apply if_neg
      rw [← hlen, maxSendTimes]
      omega
    have hsplit : ascending (n + 1) = ascending n ++ [⟨⟨0⟩, n, n⟩] := by
      rw [ascending, List.range_succ, List.map_append]
      rfl
    rw [hsplit, run_concat, sendTimes_record, if_pos rfl, BoundedMap.record, hroom,
      Option.elim_none, AList.keys_insert, hkeys, List.range_succ, List.reverse_append]
    have hnew : n ∉ (List.range n).reverse := by simp
    rw [List.erase_of_not_mem hnew]
    rfl

/-- With 512 numbers on record, recording the last of them again removes the first. -/
theorem recorded_run_fails :
    ¬ Along record Recorded new (ascending 512 ++ [⟨⟨0⟩, 511, 512⟩]) := by
  have hfull := sendTimesBounded_run (ascending 512)
  have hkeys := keys_ascending (n := 512) le_rfl
  have hlen := length_keys ((run record new (ascending 512)).sendTimes ⟨0⟩)
  rw [hkeys, List.length_reverse, List.length_range] at hlen
  rw [along_append]
  rintro ⟨-, hlast, -⟩
  have hmem : 511 ∈ (run record new (ascending 512)).sendTimes ⟨0⟩ := by
    rw [AList.mem_keys, hkeys]
    simp
  have hmin := (recorded_iff hfull ⟨⟨0⟩, 511, 512⟩).mp hlast hmem hlen.le
  rw [hkeys, List.min?_eq_some_iff] at hmin
  exact absurd (hmin.2 0 (by simp)) (by decide)

end BandwidthEstimator
end SfuKit
