import SfuKit.Model.Registry

/-! # Membership of the speaker detector

What the registry relies on about the third-party detector's set of peers, and
the smallest detector that behaves so: it keeps its peers and elects nobody.
-/
namespace SfuKit

/-- The documented effect of the detector's operations on its peer set. -/
structure MembershipLaws {D : Type*} [ActiveSpeakerDetector D] (peers : D → Finset ℕ) :
    Prop where
  new : peers ActiveSpeakerDetector.new = ∅
  addPeer : ∀ d id now, peers (ActiveSpeakerDetector.addPeer d id now) = insert id (peers d)
  recordLevel : ∀ d id level now,
    peers (ActiveSpeakerDetector.recordLevel d id level now) = insert id (peers d)
  removePeer : ∀ d id, peers (ActiveSpeakerDetector.removePeer d id) = (peers d).erase id
  tick : ∀ d now, peers (ActiveSpeakerDetector.tick d now).1 = peers d

structure PeerDetector where
  peers : Finset ℕ
deriving DecidableEq

instance : ActiveSpeakerDetector PeerDetector where
  new := ⟨∅⟩
  addPeer d id _ := ⟨insert id d.peers⟩
  recordLevel d id _ _ := ⟨insert id d.peers⟩
  removePeer d id := ⟨d.peers.erase id⟩
  tick d _ := (d, none)
  peerScores _ := []

theorem PeerDetector.membershipLaws : MembershipLaws PeerDetector.peers where
  new := rfl
  addPeer _ _ _ := rfl
  recordLevel _ _ _ _ := rfl
  removePeer _ _ := rfl
  tick _ _ := rfl

end SfuKit
