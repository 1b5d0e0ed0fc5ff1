import Mathlib.Data.List.AList

/-! Finite maps whose entries are changed, each by its key, or dropped. -/

namespace AssocMap
variable {κ α β : Type*}

/-- The entry under the same key with what it becomes, if anything. -/
def change (f : κ → α → Option β) (s : Sigma fun _ : κ => α) : Option (Sigma fun _ : κ => β) :=
  (f s.1 s.2).map fun b => ⟨s.1, b⟩

theorem keys_filterMap_sublist (f : κ → α → Option β) (l : List (Sigma fun _ : κ => α)) :
    (l.filterMap (change f)).keys.Sublist l.keys := by
  induction l with
  | nil => exact .slnil
  | cons s l ih =>
    rw [List.filterMap_cons, change]
    cases f s.1 s.2 with
    | none => exact ih.cons _
    | some b => exact ih.cons_cons _

/-- What `f` leaves of a map. -/
def filterMap (f : κ → α → Option β) (m : AList fun _ : κ => α) : AList fun _ : κ => β where
  entries := m.entries.filterMap (change f)
  nodupKeys := List.Nodup.sublist (keys_filterMap_sublist f m.entries) m.nodupKeys

theorem lookup_filterMap [DecidableEq κ] (f : κ → α → Option β) (m : AList fun _ : κ => α) (k : κ) :
    (filterMap f m).lookup k = (m.lookup k).bind (f k) := by
  ext b
  rw [← Option.mem_def, AList.mem_lookup_iff, Option.bind_eq_some_iff]
  constructor
  · intro h
    obtain ⟨⟨j, a⟩, hs, hb⟩ := List.mem_filterMap.mp h
    obtain ⟨c, hc, heq⟩ := Option.map_eq_some_iff.mp hb
    cases heq
    exact ⟨a, AList.mem_lookup_iff.mpr hs, hc⟩
  · rintro ⟨a, ha, hb⟩
    refine List.mem_filterMap.mpr ⟨⟨k, a⟩, AList.mem_lookup_iff.mp ha, ?_⟩
    rw [change, hb]
    rfl

end AssocMap
