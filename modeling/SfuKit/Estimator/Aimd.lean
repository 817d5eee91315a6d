import SfuKit.Library.Run
import SfuKit.Model.Bandwidth.GoogCc

/-! # Long runs of the AIMD controller

A call lowers, holds or raises the bitrate. With exact additions the controller stays between
its bounds, and a link that is never better never gets a higher bitrate. But the increase is
added before the ceiling is applied, and near the top of `u64` the sum wraps around.
-/
namespace SfuKit

open Library Run

inductive AimdCall where
  | updateLoss (lossFraction : ℚ)
  | onOveruse

/-- What a call does to the bitrate, the worse the earlier. -/
inductive Reaction where
  | lower
  | hold
  | raise
deriving DecidableEq

def Reaction.rank : Reaction → ℕ
  | lower => 0
  | hold => 1
  | raise => 2

theorem Reaction.rank_le_two (r : Reaction) : r.rank ≤ 2 := by
  cases r <;> decide

/-- The branch of `update_loss` that a loss fraction takes. -/
def reactionTo (lossFraction : ℚ) : Reaction :=
  if max 0 (min lossFraction 1) < AimdController.lossLowThreshold then .raise
  else if AimdController.lossHighThreshold < max 0 (min lossFraction 1) then .lower
  else .hold

def AimdCall.reaction : AimdCall → Reaction
  | updateLoss lossFraction => reactionTo lossFraction
  | onOveruse => .lower

theorem rank_reactionTo {l₁ l₂ : ℚ} (h : l₂ ≤ l₁) :
    (reactionTo l₁).rank ≤ (reactionTo l₂).rank := by
  have hclamp : max 0 (min l₂ 1) ≤ max 0 (min l₁ 1) := by gcongr
  unfold reactionTo
  by_cases hlow : max 0 (min l₂ 1) < AimdController.lossLowThreshold
  · rw [if_pos hlow]
    exact Reaction.rank_le_two _
  · have hlow₁ : ¬ max 0 (min l₁ 1) < AimdController.lossLowThreshold :=
      fun h₁ => hlow (hclamp.trans_lt h₁)
    rw [if_neg hlow, if_neg hlow₁]
    split_ifs with hhigh₁ hhigh₂ hhigh₂
    · exact le_rfl
    · exact Nat.zero_le _
    · exact absurd (hhigh₂.trans_le hclamp) hhigh₁
    · exact le_rfl

namespace AimdController

def call (c : AimdController) : AimdCall → AimdController
  | .updateLoss lossFraction => (c.updateLoss lossFraction).1
  | .onOveruse => c.onOveruse.1

def increment (bitrateBps : ℕ) : ℕ := max (bitrateBps * 8 / 100) 8000

/-- The bitrate after a reaction, with exact additions. -/
def react (c : AimdController) : Reaction → ℕ
  | .lower => max (c.bitrateBps * 85 / 100) c.minBps
  | .hold => c.bitrateBps
  | .raise => min (c.bitrateBps + increment c.bitrateBps) c.maxBps

/-- The addition of a call, if it makes one, does not overflow. -/
def Fits (c : AimdController) (i : AimdCall) : Prop :=
  i.reaction = .raise → c.bitrateBps + increment c.bitrateBps ≤ u64Max

instance (c : AimdController) (i : AimdCall) : Decidable (c.Fits i) :=
  inferInstanceAs (Decidable (_ → _))

theorem call_eq {c : AimdController} {i : AimdCall} (h : c.Fits i) :
    c.call i = { c with bitrateBps := c.react i.reaction } := by
  cases i with
  | onOveruse => rfl
  | updateLoss lossFraction =>
    unfold call updateLoss
    simp only [Fits, AimdCall.reaction] at h ⊢
    unfold reactionTo at h ⊢
    split_ifs at h ⊢ with hlow hhigh
    · have hsum : u64Add c.bitrateBps (increment c.bitrateBps) =
          c.bitrateBps + increment c.bitrateBps := by
        apply Nat.mod_eq_of_lt
        exact Nat.lt_of_le_of_lt (h rfl) (by decide)
      unfold react
      rw [← hsum]
      rfl
    · rfl
    · rfl

structure Within (minBps maxBps : ℕ) (c : AimdController) : Prop where
  min_eq : c.minBps = minBps
  max_eq : c.maxBps = maxBps
  min_le : minBps ≤ c.bitrateBps
  le_max : c.bitrateBps ≤ maxBps

variable {minBps maxBps : ℕ} {c : AimdController} {i : AimdCall}

theorem Within.react (h : Within minBps maxBps c) (r : Reaction) :
    minBps ≤ c.react r ∧ c.react r ≤ maxBps := by
  obtain ⟨hmin, hmax, hge, hle⟩ := h
  have hlower : c.bitrateBps * 85 / 100 ≤ c.bitrateBps := by omega
  cases r with
  | lower =>
    simp only [AimdController.react, hmin]
    omega
  | hold => exact ⟨hge, hle⟩
  | raise =>
    simp only [AimdController.react, hmax]
    omega

theorem Within.call (h : Within minBps maxBps c) (hfit : c.Fits i) :
    Within minBps maxBps (c.call i) := by
  rw [call_eq hfit]
  exact ⟨h.min_eq, h.max_eq, (h.react _).1, (h.react _).2⟩

def Sound (minBps maxBps : ℕ) (c : AimdController) (i : AimdCall) : Prop :=
  c.Fits i ∧ minBps ≤ (c.call i).bitrateBps ∧ (c.call i).bitrateBps ≤ maxBps

instance (minBps maxBps : ℕ) (c : AimdController) (i : AimdCall) :
    Decidable (Sound minBps maxBps c i) := inferInstanceAs (Decidable (_ ∧ _ ∧ _))

theorem sound_iff (h : Within minBps maxBps c) : Sound minBps maxBps c i ↔ c.Fits i := by
  constructor
  · exact And.left
  · intro hfit
    exact ⟨hfit, (h.call hfit).min_le, (h.call hfit).le_max⟩

def increaseCeiling : ℕ := 17080318586768103348

theorem le_increaseCeiling_iff (b : ℕ) : b ≤ increaseCeiling ↔ b + increment b ≤ u64Max := by
  unfold increaseCeiling increment u64Max
  omega

theorem fits_iff : c.Fits i ↔ (i.reaction = .raise → c.bitrateBps ≤ increaseCeiling) := by
  rw [le_increaseCeiling_iff]
  rfl

theorem along_sound_congr {Q : AimdController → AimdCall → Prop}
    (hiff : ∀ c i, Within minBps maxBps c → (Sound minBps maxBps c i ↔ Q c i))
    (h : Within minBps maxBps c) (calls : List AimdCall) :
    Along call (Sound minBps maxBps) c calls ↔ Along call Q c calls := by
  have hkeep : ∀ (c : AimdController) (i : AimdCall), Within minBps maxBps c →
      Sound minBps maxBps c i → Within minBps maxBps (c.call i) := fun c i h hs => h.call hs.1
  exact along_congr hiff hkeep h calls

def noLoss : AimdCall := .updateLoss 0

theorem noLoss_reaction : noLoss.reaction = .raise := by
  norm_num [noLoss, AimdCall.reaction, reactionTo, lossLowThreshold]

/-- While nothing overflows, enough calls without loss take the bitrate to its upper bound. -/
theorem reaches_max (h : Within minBps maxBps c)
    (hsound : ∀ calls, Along call (Sound minBps maxBps) c calls) :
    (run call c (List.replicate (maxBps - c.bitrateBps) noLoss)).bitrateBps = maxBps := by
  let Inv (c : AimdController) : Prop :=
    Within minBps maxBps c ∧ ∀ calls, Along call (Sound minBps maxBps) c calls
  have hraise : ∀ c, Inv c → (c.call noLoss).bitrateBps =
      min (c.bitrateBps + increment c.bitrateBps) maxBps := by
    intro c hc
    rw [call_eq (hc.2 [noLoss]).1.1, noLoss_reaction, ← hc.1.max_eq]
    rfl
  have hinv : ∀ c, Inv c → Inv (c.call noLoss) := fun c hc =>
    ⟨hc.1.call (hc.2 [noLoss]).1.1, fun calls => (hc.2 (noLoss :: calls)).2⟩
  have hkeep : ∀ c, Inv c → c.bitrateBps = maxBps → (c.call noLoss).bitrateBps = maxBps := by
    intro c hc hmax
    rw [hraise c hc, hmax]
    exact min_eq_right (Nat.le_add_right _ _)
  let room (c : AimdController) : ℕ := maxBps - c.bitrateBps
  have hfall : ∀ c, Inv c → ¬ c.bitrateBps = maxBps → room (c.call noLoss) < room c := by
    intro c hc hne
    have hle := hc.1.le_max
    dsimp only [room]
    rw [hraise c hc]
    unfold increment
    omega
  have hstart : Inv c := ⟨h, hsound⟩
  have hroom : room c ≤ maxBps - c.bitrateBps := le_rfl
  exact settles hinv hkeep hfall hstart hroom

/-- Calls on a controller are sound exactly while none raises the bitrate from above the ceiling,
and they all are, whatever they are, exactly when the upper bound is not above it. -/
theorem sound_run_iff (initialBps minBps maxBps : ℕ) (hmin : minBps ≤ initialBps)
    (hmax : initialBps ≤ maxBps) :
    (∀ calls, Along call (Sound minBps maxBps) (new initialBps minBps maxBps) calls ↔
      Along call (fun c i => i.reaction = .raise → c.bitrateBps ≤ increaseCeiling)
        (new initialBps minBps maxBps) calls) ∧
    ((∀ calls, Along call (Sound minBps maxBps) (new initialBps minBps maxBps) calls) ↔
      maxBps ≤ increaseCeiling) := by
  have hnew : Within minBps maxBps (new initialBps minBps maxBps) := ⟨rfl, rfl, hmin, hmax⟩
  refine ⟨fun calls => ?_, fun hsound => ?_, fun hceiling calls => ?_⟩
  · apply along_sound_congr _ hnew
    intro c i h
    rw [sound_iff h, fits_iff]
  · have hreached := reaches_max hnew hsound
    have hafter := hsound (List.replicate (maxBps - initialBps) noLoss ++ [noLoss])
    rw [along_append] at hafter
    have hfit := fits_iff.mp hafter.2.1.1 noLoss_reaction
    rwa [← hreached]
  · have hiff : ∀ c i, Within minBps maxBps c → (Sound minBps maxBps c i ↔ True) := by
      intro c i h
      rw [sound_iff h, fits_iff]
      exact iff_true_intro fun _ => h.le_max.trans hceiling
    rw [along_sound_congr hiff hnew]
    exact along_of_forall (fun _ _ => trivial) _

theorem sound_run_iff_defaults :
    googccMinBps ≤ googccInitialBps ∧ googccInitialBps ≤ googccMaxBps ∧
      ∀ calls, Along call (Sound googccMinBps googccMaxBps)
        (new googccInitialBps googccMinBps googccMaxBps) calls := by
  have hmin : googccMinBps ≤ googccInitialBps := by decide
  have hmax : googccInitialBps ≤ googccMaxBps := by decide
  exact ⟨hmin, hmax, (sound_run_iff _ _ _ hmin hmax).2.mpr (by decide)⟩

/-- Without a ceiling the addition overflows, and the bitrate ends below its lower bound. -/
theorem sound_run_fails :
    ¬ Along call (Sound 2000000000000000000 u64Max) (new u64Max 2000000000000000000 u64Max)
        [.updateLoss 0] ∧
      ((new u64Max 2000000000000000000 u64Max).call (.updateLoss 0)).bitrateBps =
        1475739525896764128 := by
  decide +kernel

section Monotone

theorem Within.react_le (h : Within minBps maxBps c) {r r' : Reaction} (hr : r.rank ≤ r'.rank) :
    c.react r ≤ c.react r' := by
  obtain ⟨hmin, hmax, hge, hle⟩ := h
  have hlower : c.react .lower ≤ c.react .hold := by
    simp only [AimdController.react, hmin]
    omega
  have hraise : c.react .hold ≤ c.react .raise := by
    simp only [AimdController.react, hmax]
    omega
  cases r with
  | lower =>
    cases r' with
    | lower => exact le_rfl
    | hold => exact hlower
    | raise => exact hlower.trans hraise
  | hold =>
    cases r' with
    | lower => exact absurd hr (by decide)
    | hold => exact le_rfl
    | raise => exact hraise
  | raise =>
    cases r' with
    | lower => exact absurd hr (by decide)
    | hold => exact absurd hr (by decide)
    | raise => exact le_rfl

variable {c' : AimdController} {i' : AimdCall}

theorem increment_mono {b b' : ℕ} (h : b ≤ b') : increment b ≤ increment b' := by
  unfold increment
  omega

theorem react_mono (hmin : c.minBps = c'.minBps) (hmax : c.maxBps = c'.maxBps)
    (h : c.bitrateBps ≤ c'.bitrateBps) (r : Reaction) : c.react r ≤ c'.react r := by
  have hincrement := increment_mono h
  cases r with
  | lower =>
    simp only [react, hmin]
    omega
  | hold => exact h
  | raise =>
    simp only [react, hmax]
    omega

/-- Two controllers within the same bounds, the first no higher. -/
structure Below (minBps maxBps : ℕ) (c c' : AimdController) : Prop where
  left : Within minBps maxBps c
  right : Within minBps maxBps c'
  le : c.bitrateBps ≤ c'.bitrateBps

theorem Below.fits (h : Below minBps maxBps c c') (hr : i.reaction.rank ≤ i'.reaction.rank)
    (hfit : c'.Fits i') : c.Fits i := by
  intro hraise
  rw [hraise] at hr
  have hraise' : i'.reaction = .raise := by
    revert hr
    cases i'.reaction <;> simp [Reaction.rank]
  have hsum := hfit hraise'
  have hle := h.le
  have hincrement := increment_mono h.le
  omega

/-- A call that reacts no better leaves the first controller no higher. -/
theorem Below.call (h : Below minBps maxBps c c') (hr : i.reaction.rank ≤ i'.reaction.rank)
    (hfit : c'.Fits i') : Below minBps maxBps (c.call i) (c'.call i') where
  left := h.left.call (h.fits hr hfit)
  right := h.right.call hfit
  le := by
    rw [call_eq (h.fits hr hfit), call_eq hfit]
    have hmin := h.left.min_eq.trans h.right.min_eq.symm
    have hmax := h.left.max_eq.trans h.right.max_eq.symm
    exact (h.left.react_le hr).trans (react_mono hmin hmax h.le i'.reaction)

theorem Below.run (h : Below minBps maxBps c c') {losses : List (ℚ × ℚ)}
    (hl : ∀ l ∈ losses, l.2 ≤ l.1)
    (hfit : Along AimdController.call Fits c' (losses.map fun l => .updateLoss l.2)) :
    Below minBps maxBps (Run.run AimdController.call c (losses.map fun l => .updateLoss l.1))
      (Run.run AimdController.call c' (losses.map fun l => .updateLoss l.2)) := by
  induction losses generalizing c c' with
  | nil => exact h
  | cons l losses ih =>
    rw [List.forall_mem_cons] at hl
    exact ih (h.call (rank_reactionTo hl.1) hfit.1) hl.2 hfit.2

/-- Of two controllers with the same bounds, the one that starts no higher and hears of no less
loss is no higher after any update, unless an addition of the other overflows. -/
theorem bitrate_run_mono (minBps maxBps b₁ b₂ : ℕ) (losses : List (ℚ × ℚ)) (hmin : minBps ≤ b₁)
    (hb : b₁ ≤ b₂) (hmax : b₂ ≤ maxBps) (hl : ∀ l ∈ losses, l.2 ≤ l.1)
    (hfit : Along call Fits (new b₂ minBps maxBps) (losses.map fun l => .updateLoss l.2)) :
    ∀ pre, pre <+: losses →
      (run call (new b₁ minBps maxBps) (pre.map fun l => .updateLoss l.1)).bitrateBps ≤
        (run call (new b₂ minBps maxBps) (pre.map fun l => .updateLoss l.2)).bitrateBps := by
  rintro pre ⟨post, rfl⟩
  have hbelow : Below minBps maxBps (new b₁ minBps maxBps) (new b₂ minBps maxBps) :=
    ⟨⟨rfl, rfl, hmin, hb.trans hmax⟩, ⟨rfl, rfl, hmin.trans hb, hmax⟩, hb⟩
  rw [List.map_append, along_append] at hfit
  exact (hbelow.run (List.forall_mem_append.mp hl).1 hfit.1).le

theorem bitrate_run_mono_lossy :
    let losses : List (ℚ × ℚ) := [(1 / 100, 1 / 1000), (5 / 100, 1 / 100), (0, 0)]
    (∀ l ∈ losses, l.2 ≤ l.1) ∧
      Along call Fits (new 500000 100000 2500000) (losses.map fun l => .updateLoss l.2) ∧
      (run call (new 400000 100000 2500000) (losses.map fun l => .updateLoss l.1)).bitrateBps ≤
        (run call (new 500000 100000 2500000) (losses.map fun l => .updateLoss l.2)).bitrateBps := by
  intro losses
  have hl : ∀ l ∈ losses, l.2 ≤ l.1 := by decide +kernel
  have hfit : Along call Fits (new 500000 100000 2500000)
      (losses.map fun l => .updateLoss l.2) := by decide +kernel
  exact ⟨hl, hfit, bitrate_run_mono 100000 2500000 400000 500000 losses (by decide) (by decide)
    (by decide) hl hfit losses (List.prefix_refl losses)⟩

end Monotone

section Defaults

theorem Bounded.within (h : c.Bounded) : Within googccMinBps googccMaxBps c :=
  ⟨h.min_eq, h.max_eq, h.min_le, h.le_max⟩

theorem Bounded.fits (h : c.Bounded) (i : AimdCall) : c.Fits i := by
  rw [fits_iff]
  exact fun _ => h.le_max.trans (by decide)

theorem Bounded.call (h : c.Bounded) (i : AimdCall) : (c.call i).Bounded := by
  obtain ⟨hmin, hmax, hge, hle⟩ := h.within.call (h.fits i)
  exact ⟨hmin, hmax, hge, hle⟩

theorem Bounded.le_noLoss (h : c.Bounded) : c.bitrateBps ≤ (c.call noLoss).bitrateBps := by
  have hraise : c.react .hold ≤ c.react .raise := h.within.react_le (by decide)
  rw [call_eq (h.fits noLoss), noLoss_reaction]
  exact hraise

end Defaults
end AimdController

namespace GoogCcEstimator

theorem new_bounded : GoogCcEstimator.new.aimd.Bounded := by
  constructor <;> decide

theorem onReceive_bounded {g : GoogCcEstimator} (h : g.aimd.Bounded)
    (arrivalMs sendMs loss : ℚ) : (g.onReceive arrivalMs sendMs loss).1.aimd.Bounded := by
  unfold onReceive
  dsimp only
  split_ifs
  · exact h.call .onOveruse
  · exact h.call (.updateLoss loss)

theorem currentBps_le_onReceive {g : GoogCcEstimator} (hg : g.aimd.Bounded) (a s : ℚ)
    (h : (g.onReceive a s 0).1.trendline.overuse = false) :
    g.currentBps ≤ (g.onReceive a s 0).1.currentBps := by
  unfold onReceive at h ⊢
  dsimp only at h
  simp only [h, Bool.and_false, Bool.false_eq_true, if_false]
  exact hg.le_noLoss

end GoogCcEstimator
end SfuKit
