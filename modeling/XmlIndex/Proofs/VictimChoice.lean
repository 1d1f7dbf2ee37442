import XmlIndex.Proofs.CacheGrowth
import XmlIndex.Proofs.CleanEvictions
import XmlIndex.Proofs.GrantedGrowth

/-! # The choice of a victim

For a collection whose key and name are new, a slot is all that `add` needs (`Hosted.add_of_isNew`).
It takes a free slot if there is one; else the victim leaves, and the collection takes its slot.
That much holds whatever the surroundings do (`Hosted.Run.choosesVictim`).

After that the cache may ask for more slots.  Those who grant slots are not part of the library;
what they promise is more slots or none (`Cache.Host.NeverShrinks`), and a budget keeps that
promise.  With it the victim is the answer, and the collection stays where it came in
(`Hosted.Run.victim_makes_room`).  Somebody who takes slots away when asked for more can make the
collection leave again in the same call (`Hosted.newcomer_leaves_usedFirst`). -/

namespace XmlIndex

namespace Hosted

variable {σ : Type} {host : Cache.Host σ} {s t u : Hosted σ} {slot : Nat}
  {place victim : Pool.Place} {refs : UInt32}

/-! ## Making room for a new collection -/

/-- The slot is found by the loop, and it is the only one that can be the victim's. -/
theorem isVictim_of_victim? {next : Nat}
    (h : ({ s.cache with uses := next } : Cache).victim? s.pool = some slot)
    (hresident : s.cache.resident? slot = some victim) :
    s.cache.IsVictim s.pool next slot victim := by
  obtain ⟨other, hvictim⟩ := Cache.victim?_eq_some_iff.mp h
  obtain rfl : victim = other := Option.some.inj (hresident.symm.trans hvictim.resident)
  exact hvictim.congr rfl fun _ _ => rfl

/-- A full cache of two slots, in which the first resident has been used again. -/
def usedFirst : Hosted Bool := Call.after meager twoResidents (.touch 1)

/-- A run leads there. -/
theorem run_usedFirst : Run meager 2 0 usedFirst := .call run_twoResidents (.touch 1) trivial

/-- The second resident is the victim and the answer, and the collection that takes its slot leaves
with the slot. -/
theorem newcomer_leaves_usedFirst :
    ¬ meager.NeverShrinks ∧ Run meager 2 0 usedFirst ∧ usedFirst.cache.residents = [0, 1] ∧
      ∃ t, add meager 3 1 usedFirst = .ok (some 1) t ∧ t.cache.slots = [some 0] := by
  refine ⟨fun hgrants => ?_, run_usedFirst, by decide, _, rfl, by decide⟩
  exact absurd (hgrants 1 false 0 rfl) (by decide)

end Hosted

end XmlIndex
