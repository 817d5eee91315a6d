import SfuKit.Library.Streak
import SfuKit.Tracks.CrossAdvertisement

/-! # Tracks are heralded before their packets

The queue is first in, first out, and a packet enters it after its track was announced:
when it is popped, every other client already holds an entry for that track, told by the
queue or, if it joined in between, by the insert-time sweep.
-/
namespace SfuKit

open Library Streak

/-- What the order of announcements depends on of a client. -/
structure Listing where
  id : ClientId
  arcs : List ArcTrack
  known : List WeakTrack

def Client.listing (c : Client) : Listing := ⟨c.id, c.arcs, c.tracksOut.map (·.trackIn)⟩

/-- An event that opens a track or carries a packet. -/
def Propagated.isRouted : Propagated → Bool
  | .trackOpen .. | .mediaData .. => true
  | _ => false

theorem Propagated.isRouted_of_isNotice {e : Propagated} (h : e.isNotice = true) :
    e.isRouted = false := by
  cases e <;> first | rfl | cases h

def routed (q : List Propagated) : List Propagated := q.filter Propagated.isRouted

@[simp] theorem routed_append (q q' : List Propagated) :
    routed (q ++ q') = routed q ++ routed q' := List.filter_append ..

def Listing.hear (e : Propagated) (x : Listing) : Listing :=
  match e with
  | .trackOpen origin w => if x.id = origin then x else { x with known := x.known ++ [w] }
  | _ => x

@[simp] theorem Listing.hear_id (e : Propagated) (x : Listing) : (x.hear e).id = x.id := by
  unfold hear
  split
  · split_ifs <;> rfl
  · rfl

@[simp] theorem Listing.hear_arcs (e : Propagated) (x : Listing) : (x.hear e).arcs = x.arcs := by
  unfold hear
  split
  · split_ifs <;> rfl
  · rfl

theorem Listing.known_subset_hear (e : Propagated) (x : Listing) : x.known ⊆ (x.hear e).known := by
  unfold hear
  split
  · split_ifs
    · exact List.Subset.refl _
    · exact List.subset_append_left _ _
  · exact List.Subset.refl _

/-- Everybody but the owner knows the track at `w`, or is told in `pre`. -/
def Told (l : List Listing) (pre : List Propagated) (owner : ClientId) (w : WeakTrack) : Prop :=
  ∀ s ∈ l, s.id ≠ owner → w ∈ s.known ∨ .trackOpen owner w ∈ pre

/-- Every track has been announced, and every packet of a connected client comes after the
announcement of its track. -/
structure Heralded (l : List Listing) (q : List Propagated) : Prop where
  tracks : ∀ x ∈ l, ∀ a ∈ x.arcs, Told l q x.id a.addr
  packets : Entrywise (fun pre e => ∀ owner data, e = .mediaData owner data →
    ∀ x ∈ l, x.id = owner → ∃ a ∈ x.arcs, a.track.mid = data.mid ∧ Told l pre owner a.addr) q

namespace Told
variable {l l' : List Listing} {pre pre' : List Propagated} {owner : ClientId} {w : WeakTrack}

theorem mono (h : Told l pre owner w)
    (hl : ∀ s' ∈ l', ∃ s ∈ l, s.id = s'.id ∧ s.known ⊆ s'.known) (hpre : pre ⊆ pre') :
    Told l' pre' owner w := by
  intro s' hs' hne
  obtain ⟨s, hs, hid, hknown⟩ := hl s' hs'
  exact (h s hs (by rwa [hid])).imp (fun hw => hknown hw) fun ho => hpre ho

theorem pop {e : Propagated} (h : Told l (e :: pre) owner w) :
    Told (l.map (Listing.hear e)) pre owner w := by
  intro s hs hne
  obtain ⟨x, hx, rfl⟩ := List.mem_map.mp hs
  rw [Listing.hear_id] at hne
  rcases h x hx hne with hw | ho
  · exact .inl (x.known_subset_hear e hw)
  · rcases List.mem_cons.mp ho with rfl | ho
    · left
      simp [Listing.hear, hne]
    · exact .inr ho

end Told

namespace Heralded
variable {l : List Listing} {q : List Propagated}

theorem nil : Heralded [] [] := ⟨fun _ hx => absurd hx List.not_mem_nil, entrywise_nil _⟩

theorem pop {e : Propagated} (h : Heralded l (e :: q)) : Heralded (l.map (Listing.hear e)) q where
  tracks x hx a ha := by
    obtain ⟨y, hy, rfl⟩ := List.mem_map.mp hx
    rw [Listing.hear_arcs] at ha
    rw [Listing.hear_id]
    exact (h.tracks y hy a ha).pop
  packets pre p post hq owner data hp x hx hid := by
    obtain ⟨y, hy, rfl⟩ := List.mem_map.mp hx
    rw [Listing.hear_id] at hid
    obtain ⟨a, ha, hmid, htold⟩ :=
      h.packets (e :: pre) p post (by rw [hq]; rfl) owner data hp y hy hid
    exact ⟨a, by rwa [Listing.hear_arcs], hmid, htold.pop⟩

/-- A client opens a track and says so. -/
theorem publish (h : Heralded l q) {i : ℕ} {x : Listing} (hi : l[i]? = some x) (a : ArcTrack) :
    Heralded (l.set i { x with arcs := x.arcs ++ [a] }) (q ++ [.trackOpen x.id a.addr]) := by
  have hx : x ∈ l := List.mem_of_getElem? hi
  have hback : ∀ s' ∈ l.set i { x with arcs := x.arcs ++ [a] }, ∃ s ∈ l, s.id = s'.id ∧
      s.known ⊆ s'.known := by
    intro s' hs'
    rcases List.mem_or_eq_of_mem_set hs' with hs' | rfl
    · exact ⟨s', hs', rfl, List.Subset.refl _⟩
    · exact ⟨x, hx, rfl, List.Subset.refl _⟩
  refine ⟨fun y hy b hb => ?_, ?_⟩
  · rcases List.mem_or_eq_of_mem_set hy with hy | rfl
    · exact (h.tracks y hy b hb).mono hback (List.subset_append_left _ _)
    · rcases List.mem_append.mp hb with hb | hb
      · exact (h.tracks x hx b hb).mono hback (List.subset_append_left _ _)
      · obtain rfl := List.mem_singleton.mp hb
        exact fun s _ _ => .inr (by simp)
  · rw [entrywise_concat]
    refine ⟨fun pre e post hq owner data he y hy hid => ?_, fun owner data he => by cases he⟩
    rcases List.mem_or_eq_of_mem_set hy with hy | rfl
    · obtain ⟨b, hb, hmid, htold⟩ := h.packets pre e post hq owner data he y hy hid
      exact ⟨b, hb, hmid, htold.mono hback (List.Subset.refl _)⟩
    · obtain ⟨b, hb, hmid, htold⟩ := h.packets pre e post hq owner data he x hx hid
      exact ⟨b, List.mem_append_left _ hb, hmid, htold.mono hback (List.Subset.refl _)⟩

theorem send (h : Heralded l q) (hnodup : (l.map (·.id)).Nodup) {x : Listing} (hx : x ∈ l)
    {a : ArcTrack} (ha : a ∈ x.arcs) {data : SfuMediaPayload} (hmid : a.track.mid = data.mid) :
    Heralded l (q ++ [.mediaData x.id data]) := by
  refine ⟨fun y hy b hb => ?_, ?_⟩
  · exact (h.tracks y hy b hb).mono (fun s hs => ⟨s, hs, rfl, List.Subset.refl _⟩)
      (List.subset_append_left _ _)
  · rw [entrywise_concat]
    refine ⟨h.packets, fun owner d hd y hy hid => ?_⟩
    obtain ⟨rfl, rfl⟩ : x.id = owner ∧ data = d := by simpa using hd
    obtain rfl : y = x := List.inj_on_of_nodup_map hnodup hy hx hid
    exact ⟨a, ha, hmid, h.tracks y hy a ha⟩

/-- A client without tracks joins and is told about all there are. -/
theorem join (h : Heralded l q) {x : Listing} (hnone : x.arcs = [])
    (hknown : ∀ y ∈ l, ∀ a ∈ y.arcs, a.addr ∈ x.known)
    (hfresh : ∀ owner data, .mediaData owner data ∈ q → x.id ≠ owner) :
    Heralded (l ++ [x]) q := by
  have htold : ∀ y ∈ l, ∀ a ∈ y.arcs, ∀ pre owner, Told l pre owner a.addr →
      Told (l ++ [x]) pre owner a.addr := by
    intro y hy a ha pre owner h s hs hne
    rcases List.mem_append.mp hs with hs | hs
    · exact h s hs hne
    · obtain rfl := List.mem_singleton.mp hs
      exact .inl (hknown y hy a ha)
  refine ⟨fun y hy a ha => ?_, fun pre e post hq owner data he y hy hid => ?_⟩
  · rcases List.mem_append.mp hy with hy | hy
    · exact htold y hy a ha q y.id (h.tracks y hy a ha)
    · rw [List.mem_singleton.mp hy, hnone] at ha
      cases ha
  · rcases List.mem_append.mp hy with hy | hy
    · obtain ⟨a, ha, hmid, hpre⟩ := h.packets pre e post hq owner data he y hy hid
      exact ⟨a, ha, hmid, htold y hy a ha pre owner hpre⟩
    · obtain rfl := List.mem_singleton.mp hy
      refine absurd hid (hfresh owner data ?_)
      rw [hq, he]
      simp

theorem leave (h : Heralded l q) {l' : List Listing} (hl : l' ⊆ l) : Heralded l' q := by
  have hback : ∀ s' ∈ l', ∃ s ∈ l, s.id = s'.id ∧ s.known ⊆ s'.known :=
    fun s' hs' => ⟨s', hl hs', rfl, List.Subset.refl _⟩
  refine ⟨fun x hx a ha => (h.tracks x (hl hx) a ha).mono hback (List.Subset.refl _),
    fun pre e post hq owner data he x hx hid => ?_⟩
  obtain ⟨a, ha, hmid, hpre⟩ := h.packets pre e post hq owner data he x (hl hx) hid
  exact ⟨a, ha, hmid, hpre.mono hback (List.Subset.refl _)⟩

end Heralded
end SfuKit
