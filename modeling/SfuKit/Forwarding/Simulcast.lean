import SfuKit.Model.ClientFrame

/-! # The simulcast filter

A packet of a simulcast layer passes if its RID is what the selector picks for
the subscriber. The set the selector chooses from is the one the subscriber
itself publishes, not the publisher's.
-/
namespace SfuKit.Client

/-- A packet of `publisher` passes all filters of `c`. -/
def Receives (c : Client) (heap : List ArcTrack) (publisher : Client) (data : SfuMediaPayload) :
    Prop :=
  (c.handleMediaDataOut heap publisher.id data).1.deliveredMedia = c.deliveredMedia + 1

instance (c : Client) (heap : List ArcTrack) (publisher : Client) (data : SfuMediaPayload) :
    Decidable (c.Receives heap publisher data) :=
  inferInstanceAs (Decidable (_ = _))

def activeSet (c : Client) : Set SfuRid := {r | r ∈ c.activeRids}

/-- Of the publisher's layers the subscriber receives the best fits, and exactly one layer
if they are all of `q`, `h` and `f`. -/
structure FollowsPublisher (c : Client) (heap : List ArcTrack) (publisher : Client) : Prop where
  bestFit : ∀ data r, data.rid = some r → r ∈ publisher.activeRids →
    (c.Receives heap publisher data ↔ IsBestFit c.desiredLayer publisher.activeSet r)
  unique : (∀ r ∈ publisher.activeRids, r ∈ ({.low, .medium, .high} : Set SfuRid)) →
    ∃! r, r ∈ publisher.activeRids ∧ ∀ data, data.rid = some r → c.Receives heap publisher data

/-- What the filter compares a packet's RID with. -/
def target (c : Client) : SfuRid := BestFitSelector.select c.desiredLayer c.activeRids

/-- Without suspension and caps the filter looks at the RID alone. -/
theorem receives_iff (c : Client) (heap : List ArcTrack) (publisher : Client)
    (data : SfuMediaPayload) {r : SfuRid} (hs : c.suspended = false)
    (ht : c.maxTemporalLayer = 255) (hv : c.maxVfmTemporalLayer = 255) (hr : data.rid = some r) :
    c.Receives heap publisher data ↔ r = c.target := by
  have hcap : ∀ t : UInt8, t ≤ 255 := fun t => UInt8.le_iff_toNat_le.mpr (by
    have hlt := t.toNat_lt
    simp only [UInt8.reduceToNat]
    omega)
  have htemp : c.temporalAccepts data = true := by
    simp [temporalAccepts, ht, hv, hcap]
  unfold Receives
  rw [handleMediaDataOut_deliveredMedia]
  simp [passesFilters, hs, htemp, layerAccepts, hr, target]

def layerPacket (r : SfuRid) : SfuMediaPayload where
  mid := ⟨0⟩
  pt := ⟨96⟩
  rid := some r
  data := []
  networkTime := 0
  contiguous := true
  time := ⟨0, 90000⟩
  params := ⟨0, true⟩
  av1Dd := none
  vfmFm := none
  audioLevel := none
  keyEpoch := none

/-- The subscriber follows the publisher exactly when the layer that fits best among the
subscriber's own RIDs is the one best fit among the publisher's. -/
theorem followsPublisher_iff (c : Client) (heap : List ArcTrack) (publisher : Client)
    (hs : c.suspended = false) (ht : c.maxTemporalLayer = 255)
    (hv : c.maxVfmTemporalLayer = 255) (hA : publisher.activeRids ≠ []) :
    c.FollowsPublisher heap publisher ↔
      ∀ r, IsBestFit c.desiredLayer publisher.activeSet r ↔
        FitsBest c.desiredLayer c.activeRids r := by
  have htgt : ∀ r, FitsBest c.desiredLayer c.activeRids r ↔ r = c.target :=
    fun r => fitsBest_iff_select.trans eq_comm
  simp only [htgt]
  have hrec : ∀ data r, data.rid = some r → (c.Receives heap publisher data ↔ r = c.target) :=
    fun data r hr => c.receives_iff heap publisher data hs ht hv hr
  have hbest := isBestFit_select c.desiredLayer hA
  constructor
  · rintro ⟨hfit, -⟩ r
    have hfits : ∀ s ∈ publisher.activeRids,
        (s = c.target ↔ IsBestFit c.desiredLayer publisher.activeSet s) := fun s hs =>
      (hrec (layerPacket s) s rfl).symm.trans (hfit (layerPacket s) s rfl hs)
    constructor
    · exact fun h => (hfits r h.1).mpr h
    · -- Some layer of the publisher is a best fit, hence the target.
      rintro rfl
      have hsel : BestFitSelector.select c.desiredLayer publisher.activeRids = c.target :=
        (hfits _ hbest.1).mpr hbest
      have htarget : IsBestFit c.desiredLayer publisher.activeSet c.target := hsel ▸ hbest
      exact htarget
  · intro hcond
    refine ⟨fun data r hr _ => (hrec data r hr).trans (hcond r).symm, fun _ => ?_⟩
    have htarget : IsBestFit c.desiredLayer publisher.activeSet c.target := (hcond _).mpr rfl
    refine ⟨c.target, ⟨htarget.1, fun data hr => (hrec data _ hr).mpr rfl⟩, ?_⟩
    rintro r ⟨-, hr⟩
    exact (hrec (layerPacket r) r rfl).mp (hr (layerPacket r) rfl)

/-- A subscriber that publishes nothing and wants `f`, a publisher that sends `q` only:
the one layer there is does not arrive. -/
theorem followsPublisher_fails :
    ¬ ((Client.new ⟨1⟩ .new .throwaway).1.setDesiredLayer .high).FollowsPublisher []
      { (Client.new ⟨0⟩ .new .throwaway).1 with activeRids := [.low] } := by
  rintro ⟨hfit, -⟩
  have hbest := isBestFit_select .high (show [SfuRid.low] ≠ [] by decide)
  exact absurd ((hfit (layerPacket .low) .low rfl (by decide)).mpr hbest) (by decide)

/-- A subscriber that wants `q`, which the publisher sends. -/
theorem followsPublisher_low :
    (Client.new ⟨1⟩ .new .throwaway).1.FollowsPublisher []
      { (Client.new ⟨0⟩ .new .throwaway).1 with activeRids := [.low] } := by
  refine (followsPublisher_iff _ _ _ rfl rfl rfl (by decide)).mpr fun r => ?_
  rw [fitsBest_iff_select]
  constructor
  · rintro ⟨hr, -⟩
    exact (List.mem_singleton.mp hr).symm
  · rintro rfl
    exact isBestFit_select .low (by decide)

end SfuKit.Client
