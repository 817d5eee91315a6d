import SfuKit.Model.Ids

/-! # The hysteretic layer pacer

`PacerConfig` and `SubscriberPacer` of the `bwe` module: the thresholds with
their validation, and the state machine that turns each bandwidth reading into
a `PacerAction`.
-/
namespace SfuKit

def suspendVideoBps : ℕ := 10000
def audioOnlyBps : ℕ := 80000
def lowMinBps : ℕ := 150000
def mediumMinBps : ℕ := 350000
def highMinBps : ℕ := 700000
def suspendStreak : UInt8 := 2
def upgradeStreak : UInt8 := 3
def pacerMinTickInterval : Duration := fromMillis 100

inductive PacerConfigError where
  | upgradeStreakZero
  | suspendStreakZero
  | bitrateOrderingViolation
deriving DecidableEq, Repr

structure PacerConfig where
  suspendVideoBps : ℕ
  audioOnlyBps : ℕ
  lowMinBps : ℕ
  mediumMinBps : ℕ
  highMinBps : ℕ
  suspendStreak : UInt8
  upgradeStreak : UInt8
deriving DecidableEq, Repr

namespace PacerConfig

/-- `PacerConfig::validate`: the first violation found, streaks before ordering. -/
def validate (c : PacerConfig) : Except PacerConfigError Unit :=
  if c.upgradeStreak = 0 then .error .upgradeStreakZero
  else if c.suspendStreak = 0 then .error .suspendStreakZero
  else if ¬ (c.suspendVideoBps ≤ c.audioOnlyBps ∧ c.audioOnlyBps ≤ c.lowMinBps ∧
      c.lowMinBps ≤ c.mediumMinBps ∧ c.mediumMinBps ≤ c.highMinBps) then
    .error .bitrateOrderingViolation
  else .ok ()

def default : PacerConfig where
  suspendVideoBps := SfuKit.suspendVideoBps
  audioOnlyBps := SfuKit.audioOnlyBps
  lowMinBps := SfuKit.lowMinBps
  mediumMinBps := SfuKit.mediumMinBps
  highMinBps := SfuKit.highMinBps
  suspendStreak := SfuKit.suspendStreak
  upgradeStreak := SfuKit.upgradeStreak

/-- What an accepted configuration satisfies. -/
structure Valid (c : PacerConfig) : Prop where
  upgrade_ne : c.upgradeStreak ≠ 0
  suspend_ne : c.suspendStreak ≠ 0
  suspend_le : c.suspendVideoBps ≤ c.audioOnlyBps
  audio_le : c.audioOnlyBps ≤ c.lowMinBps
  low_le : c.lowMinBps ≤ c.mediumMinBps
  medium_le : c.mediumMinBps ≤ c.highMinBps

theorem validate_ok_iff (c : PacerConfig) : c.validate = .ok () ↔ c.Valid := by
  unfold validate
  constructor
  · intro h
    split_ifs at h with hu hs ho
    obtain ⟨h1, h2, h3, h4⟩ := ho
    exact ⟨hu, hs, h1, h2, h3, h4⟩
  · rintro ⟨hu, hs, h1, h2, h3, h4⟩
    rw [if_neg hu, if_neg hs, if_neg (not_not.mpr ⟨h1, h2, h3, h4⟩)]

theorem default_valid : default.Valid := (validate_ok_iff _).mp (by decide)

end PacerConfig

/-- What the forwarder has to do after a reading. -/
inductive PacerAction where
  | noChange
  | changeLayer (rid : SfuRid)
  | goAudioOnly
  | restoreVideo
  | suspendVideo
  | restoreAudio
deriving DecidableEq, Repr

structure SubscriberPacer where
  currentLayer : SfuRid
  audioOnly : Bool
  suspended : Bool
  upgradeStreak : UInt8
  suspendStreak : UInt8
  config : PacerConfig
deriving DecidableEq, Repr

/-- `rank` of `hysteresis.rs`. Its `unreachable!` arm gets the rank 3; no
pacer built by `tryWithConfig` reaches it. -/
def rank (r : SfuRid) : ℕ :=
  if r = .low then 0 else if r = .medium then 1 else if r = .high then 2 else 3

namespace SubscriberPacer

def tryWithConfig (config : PacerConfig) : Except PacerConfigError SubscriberPacer := do
  config.validate
  pure { currentLayer := .low, audioOnly := false, suspended := false,
         upgradeStreak := 0, suspendStreak := 0, config }

/-- The pacer `tryWithConfig` builds from an accepted configuration. -/
def fresh (config : PacerConfig) : SubscriberPacer where
  currentLayer := .low
  audioOnly := false
  suspended := false
  upgradeStreak := 0
  suspendStreak := 0
  config := config

theorem tryWithConfig_eq_ok_iff (c : PacerConfig) (p : SubscriberPacer) :
    tryWithConfig c = .ok p ↔ c.Valid ∧ p = fresh c := by
  rw [← PacerConfig.validate_ok_iff]
  unfold tryWithConfig fresh
  cases h : c.validate with
  | error e => simp [bind, Except.bind]
  | ok u => simp [bind, Except.bind, pure, Except.pure, eq_comm]

/-- `SubscriberPacer::new`, whose default configuration passes validation. -/
def new : SubscriberPacer := fresh .default

theorem tryWithConfig_default : tryWithConfig .default = .ok new :=
  (tryWithConfig_eq_ok_iff _ _).mpr ⟨PacerConfig.default_valid, rfl⟩

def layerForBps (p : SubscriberPacer) (bps : ℕ) : SfuRid :=
  if p.config.highMinBps ≤ bps then .high
  else if p.config.mediumMinBps ≤ bps then .medium
  else .low

/-- The layer decision at the end of `update`, in full-video mode. -/
def updateLayer (p : SubscriberPacer) (bps : ℕ) : SubscriberPacer × PacerAction :=
  let target := p.layerForBps bps
  if rank target < rank p.currentLayer then
    -- Downgrade: immediate, and the streak restarts.
    ({ p with currentLayer := target, upgradeStreak := 0 }, .changeLayer target)
  else if rank p.currentLayer < rank target then
    let streak := u8SaturatingSucc p.upgradeStreak
    if p.config.upgradeStreak ≤ streak then
      ({ p with currentLayer := target, upgradeStreak := 0 }, .changeLayer target)
    else ({ p with upgradeStreak := streak }, .noChange)
  else ({ p with upgradeStreak := 0 }, .noChange)

/-- `SubscriberPacer::update`: feed one egress bandwidth reading. -/
def update (p : SubscriberPacer) (bps : ℕ) : SubscriberPacer × PacerAction :=
  if p.suspended then
    if p.config.audioOnlyBps ≤ bps then
      ({ p with suspended := false, audioOnly := true, upgradeStreak := 0,
                suspendStreak := 0 }, .restoreAudio)
    else (p, .noChange)
  else if bps < p.config.suspendVideoBps then
    let streak := u8SaturatingSucc p.suspendStreak
    if p.config.suspendStreak ≤ streak then
      ({ p with suspended := true, audioOnly := true, upgradeStreak := 0,
                suspendStreak := 0 }, .suspendVideo)
    else ({ p with suspendStreak := streak }, .noChange)
  else
    -- Every path below runs with the suspend streak already cleared.
    let p := { p with suspendStreak := 0 }
    if p.audioOnly then
      if p.config.lowMinBps ≤ bps then
        ({ p with audioOnly := false, currentLayer := .low, upgradeStreak := 0 },
          .restoreVideo)
      else (p, .noChange)
    else if bps < p.config.audioOnlyBps then
      ({ p with audioOnly := true, upgradeStreak := 0 }, .goAudioOnly)
    else p.updateLayer bps

/-- What `updateLayer` can do: it touches the layer and the upgrade streak only,
and the layer exactly when it says so. -/
theorem updateLayer_cases (p : SubscriberPacer) (bps : ℕ) :
    (∃ l s, p.updateLayer bps = ({ p with currentLayer := l, upgradeStreak := s }, .changeLayer l))
    ∨ ∃ s, p.updateLayer bps = ({ p with upgradeStreak := s }, .noChange) := by
  unfold updateLayer
  dsimp only
  split_ifs with hd hu hs
  · exact .inl ⟨_, _, rfl⟩
  · exact .inl ⟨_, _, rfl⟩
  · exact .inr ⟨_, rfl⟩
  · exact .inr ⟨_, rfl⟩

/-- Everything a reading can do to a pacer, with the guard of each branch. -/
theorem update_cases (p : SubscriberPacer) (bps : ℕ) :
    (p.suspended = true ∧ p.config.audioOnlyBps ≤ bps ∧ p.update bps =
      ({ p with suspended := false, audioOnly := true, upgradeStreak := 0, suspendStreak := 0 },
        .restoreAudio)) ∨
    (p.suspended = true ∧ bps < p.config.audioOnlyBps ∧ p.update bps = (p, .noChange)) ∨
    (p.suspended = false ∧ bps < p.config.suspendVideoBps ∧
      p.config.suspendStreak ≤ u8SaturatingSucc p.suspendStreak ∧ p.update bps =
      ({ p with suspended := true, audioOnly := true, upgradeStreak := 0, suspendStreak := 0 },
        .suspendVideo)) ∨
    (p.suspended = false ∧ bps < p.config.suspendVideoBps ∧
      ¬ p.config.suspendStreak ≤ u8SaturatingSucc p.suspendStreak ∧ p.update bps =
      ({ p with suspendStreak := u8SaturatingSucc p.suspendStreak }, .noChange)) ∨
    (p.suspended = false ∧ p.config.suspendVideoBps ≤ bps ∧ p.audioOnly = true ∧
      p.config.lowMinBps ≤ bps ∧ p.update bps =
      ({ p with suspendStreak := 0, audioOnly := false, currentLayer := .low, upgradeStreak := 0 },
        .restoreVideo)) ∨
    (p.suspended = false ∧ p.config.suspendVideoBps ≤ bps ∧ p.audioOnly = true ∧
      bps < p.config.lowMinBps ∧ p.update bps = ({ p with suspendStreak := 0 }, .noChange)) ∨
    (p.suspended = false ∧ p.config.suspendVideoBps ≤ bps ∧ p.audioOnly = false ∧
      bps < p.config.audioOnlyBps ∧ p.update bps =
      ({ p with suspendStreak := 0, audioOnly := true, upgradeStreak := 0 }, .goAudioOnly)) ∨
    (p.suspended = false ∧ p.config.suspendVideoBps ≤ bps ∧ p.audioOnly = false ∧
      p.config.audioOnlyBps ≤ bps ∧
      p.update bps = ({ p with suspendStreak := 0 } : SubscriberPacer).updateLayer bps) := by
  unfold update
  cases hs : p.suspended
  · by_cases hv : bps < p.config.suspendVideoBps
    · by_cases hk : p.config.suspendStreak ≤ u8SaturatingSucc p.suspendStreak <;>
        simp [hv, hk]
    · have hv' := not_lt.mp hv
      cases ha : p.audioOnly
      · by_cases hb : bps < p.config.audioOnlyBps
        · simp [hv, hv', hb]
        · simp [hv, hv', hb, not_lt.mp hb]
      · by_cases hb : p.config.lowMinBps ≤ bps
        · simp [hv, hv', hb]
        · simp [hv, hv', hb, not_le.mp hb]
  · by_cases hb : p.config.audioOnlyBps ≤ bps
    · simp [hb]
    · simp [hb, not_le.mp hb]

@[simp] theorem update_config (p : SubscriberPacer) (bps : ℕ) :
    (p.update bps).1.config = p.config := by
  rcases update_cases p bps with ⟨-, -, h⟩ | ⟨-, -, h⟩ | ⟨-, -, -, h⟩ | ⟨-, -, -, h⟩ |
    ⟨-, -, -, -, h⟩ | ⟨-, -, -, -, h⟩ | ⟨-, -, -, -, h⟩ | ⟨-, -, -, -, h⟩ <;> rw [h]
  rcases updateLayer_cases { p with suspendStreak := 0 } bps with ⟨l, s, h'⟩ | ⟨s, h'⟩ <;> rw [h']

/-- The mode after a reading, told by the action alone: four actions set it,
the other two keep it. -/
theorem update_mode (p : SubscriberPacer) (bps : ℕ) :
    ((p.update bps).1.audioOnly, (p.update bps).1.suspended) =
      match (p.update bps).2 with
      | .goAudioOnly => (true, p.suspended)
      | .restoreVideo => (false, p.suspended)
      | .suspendVideo => (true, true)
      | .restoreAudio => (true, false)
      | .noChange | .changeLayer _ => (p.audioOnly, p.suspended) := by
  rcases update_cases p bps with ⟨-, -, h⟩ | ⟨-, -, h⟩ | ⟨-, -, -, h⟩ | ⟨-, -, -, h⟩ |
    ⟨-, -, -, -, h⟩ | ⟨-, -, -, -, h⟩ | ⟨-, -, -, -, h⟩ | ⟨-, -, -, -, h⟩ <;> rw [h]
  rcases updateLayer_cases { p with suspendStreak := 0 } bps with ⟨l, s, h'⟩ | ⟨s, h'⟩ <;> rw [h']

/-- What a reading does to the suspend streak: a low one bumps it, or suspends once it is
long enough; any other clears it, but for a pacer that stays suspended. -/
theorem update_suspendStreak (p : SubscriberPacer) (bps : ℕ) :
    (p.suspended = true ∧ p.update bps = (p, .noChange)) ∨
    ((p.update bps).1.suspendStreak = 0 ∧ (p.update bps).2 ≠ .suspendVideo) ∨
    (bps < p.config.suspendVideoBps ∧ p.config.suspendStreak ≤ u8SaturatingSucc p.suspendStreak ∧
      (p.update bps).1.suspendStreak = 0) ∨
    (bps < p.config.suspendVideoBps ∧ p.update bps =
      ({ p with suspendStreak := u8SaturatingSucc p.suspendStreak }, .noChange) ∧
        p.suspended = false) := by
  rcases update_cases p bps with ⟨-, -, h⟩ | ⟨hs, -, h⟩ | ⟨-, hv, hk, h⟩ | ⟨hs, hv, -, h⟩ |
    ⟨-, -, -, -, h⟩ | ⟨-, -, -, -, h⟩ | ⟨-, -, -, -, h⟩ | ⟨-, -, -, -, h⟩
  · right; left; rw [h]; exact ⟨rfl, by simp⟩
  · exact .inl ⟨hs, h⟩
  · right; right; left; rw [h]; exact ⟨hv, hk, rfl⟩
  · exact .inr (.inr (.inr ⟨hv, h, hs⟩))
  · right; left; rw [h]; exact ⟨rfl, by simp⟩
  · right; left; rw [h]; exact ⟨rfl, by simp⟩
  · right; left; rw [h]; exact ⟨rfl, by simp⟩
  · right; left
    rw [h]
    rcases updateLayer_cases { p with suspendStreak := 0 } bps with ⟨l, s, h'⟩ | ⟨s, h'⟩ <;>
      rw [h'] <;> exact ⟨rfl, by simp⟩

end SubscriberPacer
end SfuKit
