import SfuKit.Server.Datagrams

/-! # The loop wakes up in time

The timer runs to the earliest timeout that ended a turn of the poll, within its two bounds. So
it oversleeps no timeout but by the millisecond it always waits, and it stops early for nothing
but the fallback of `poll_all` and its own ceiling.
-/
namespace SfuKit

open Library Polling

theorem foldl_min_spec (l : List Instant) (d : Instant) :
    l.foldl min d ≤ d ∧ (∀ t ∈ l, l.foldl min d ≤ t) ∧ (l.foldl min d = d ∨ l.foldl min d ∈ l) := by
  induction l generalizing d with
  | nil => exact ⟨le_rfl, by simp, .inl rfl⟩
  | cons t l ih =>
    obtain ⟨hle, hall, hone⟩ := ih (min d t)
    rw [List.foldl_cons]
    refine ⟨hle.trans (min_le_left d t), ?_, ?_⟩
    · intro u hu
      rcases List.mem_cons.mp hu with rfl | hu
      · exact hle.trans (min_le_right d u)
      · exact hall u hu
    · rcases hone with h | h
      · rw [h]
        rcases min_choice d t with hd | ht
        · exact .inl hd
        · rw [ht]
          exact .inr List.mem_cons_self
      · exact .inr (List.mem_cons_of_mem t h)

theorem sleepFor_spec (deadline now : Instant) :
    fromMillis 1 ≤ sleepFor deadline now ∧ sleepFor deadline now ≤ maxSleep ∧
      now + sleepFor deadline now ≤ max deadline (now + fromMillis 1) ∧
      (sleepFor deadline now = fromMillis 1 ∨ sleepFor deadline now = maxSleep ∨
        now + sleepFor deadline now = deadline) := by
  have hclamp : ∀ d n a b : ℕ, a ≤ b → a ≤ min (max (d - n) a) b ∧ min (max (d - n) a) b ≤ b ∧
      n + min (max (d - n) a) b ≤ max d (n + a) ∧
      (min (max (d - n) a) b = a ∨ min (max (d - n) a) b = b ∨
        n + min (max (d - n) a) b = d) := by
    intro d n a b hab
    omega
  exact hclamp deadline now (fromMillis 1) maxSleep (by decide)

namespace Server
variable {D : Type*} [ActiveSpeakerDetector D] (F : Features)

def timeouts (s : Server D) (x : Pass) : List Instant :=
  NetPoll.timeouts (NetPoll.trace x.feed s.living)

theorem cycle_timer (s : Server D) (x : Pass) : (s.cycle F x).2 =
    sleepFor ((s.timeouts x).foldl min (x.pollNow + fromMillis 100)) x.sleepNow :=
  congrArg (fun deadline => sleepFor deadline x.sleepNow)
    (NetPoll.round_deadline F x.pollNow x.feed _)

/-- Whatever state the loop is in, an iteration parks for a millisecond to `MAX_SLEEP`. The
timer fires no later than any timeout of the poll, if that is a millisecond away, and for each
timer that is neither shortest nor longest it fires exactly at one of them or at the fallback. -/
theorem timer_fires (s : Server D) (x : Pass) :
    let wake := x.sleepNow + (s.cycle F x).2
    fromMillis 1 ≤ (s.cycle F x).2 ∧ (s.cycle F x).2 ≤ maxSleep ∧
      (∀ t ∈ s.timeouts x, wake ≤ max t (x.sleepNow + fromMillis 1)) ∧
      ((s.cycle F x).2 = fromMillis 1 ∨ (s.cycle F x).2 = maxSleep ∨
        wake = x.pollNow + fromMillis 100 ∨ wake ∈ s.timeouts x) := by
  intro wake
  have hwake : wake = x.sleepNow + (s.cycle F x).2 := rfl
  rw [cycle_timer] at hwake ⊢
  obtain ⟨-, hall, hone⟩ := foldl_min_spec (s.timeouts x) (x.pollNow + fromMillis 100)
  generalize (s.timeouts x).foldl min (x.pollNow + fromMillis 100) = deadline at hwake hall hone ⊢
  obtain ⟨hmin, hmax, hin, hexact⟩ := sleepFor_spec deadline x.sleepNow
  rw [← hwake] at hin hexact
  refine ⟨hmin, hmax, ?_, ?_⟩
  · intro t ht
    exact hin.trans (max_le_max_right _ (hall t ht))
  · rcases hexact with h | h | h
    · exact .inl h
    · exact .inr (.inl h)
    · rw [h]
      exact .inr (.inr hone)

end Server
end SfuKit
