import SahDB.HeapLinks
import SahDB.Restart

/-! The TTL heap against the expiries.

    An entry's expiry and its place in the heap are two records of one fact. Deleting an entry
    leaves no trace of it in either, a SET changes neither for the others, and EXPIRE takes the
    entry out, writes the expiry and puts it back; so the two agree on every linked entry
    (`Tracks`), unless the expiry EXPIRE writes is -1. A start-up from a file never puts an entry
    into the heap, whatever expiry it writes. -/

namespace SahDB
open Db

namespace Db

/-- The entry is where its `heap_index` says. -/
def Occupies (s : Db) (a : Addr) : Prop :=
  (s.mem a).heapIndex < s.size ∧ s.heap (s.mem a).heapIndex = a

/-- The linked entries with an expiry are those in the heap. -/
def Tracks (s : Db) : Prop := ∀ a, s.Linked a → ((s.mem a).expiry ≠ -1 ↔ s.Occupies a)

/-- The same, but for the entry `a` that a call is working on. -/
def TracksBut (a : Addr) (s : Db) : Prop :=
  ∀ b, b ≠ a → s.Linked b → ((s.mem b).expiry ≠ -1 ↔ s.Has b)

/-- The call gives a live key the expiry -1. -/
def Untracks (s : Db) : Call → Prop
  | .updateExpiry k d now now' _ =>
    ∃ e, s.table.find k = some e ∧ ¬ e.Expired now ∧ timeT (now' + d) = -1
  | _ => False

theorem occupies_iff {s : Db} (hb : s.Back) (a : Addr) : s.Occupies a ↔ s.Has a :=
  ⟨fun h => ⟨_, h.1, h.2⟩, hb.index⟩

theorem Tracks.but {s : Db} (h : s.Tracks) (hb : s.Back) (a : Addr) : s.TracksBut a :=
  fun b _ hl => (h b hl).trans (occupies_iff hb b)

/-- What is left to show of the entry the call worked on. -/
theorem TracksBut.all {s : Db} {a : Addr} (h : s.TracksBut a) (hb : s.Back)
    (ha : s.Linked a → ((s.mem a).expiry ≠ -1 ↔ s.Has a)) : s.Tracks := by
  intro b hl
  rw [occupies_iff hb]
  rcases eq_or_ne b a with rfl | hne
  · exact ha hl
  · exact h b hne hl

/-- A change that leaves the expiry, the link and the place of every other entry. -/
theorem TracksBut.frame {s s' : Db} {a : Addr} (h : s.TracksBut a)
    (hlink : ∀ b, b ≠ a → s'.Linked b → s.Linked b)
    (hexp : ∀ b, b ≠ a → (s'.mem b).expiry = (s.mem b).expiry)
    (hhas : ∀ b, b ≠ a → (s'.Has b ↔ s.Has b)) : s'.TracksBut a := by
  intro b hne hl
  rw [hexp b hne, hhas b hne]
  exact h b hne (hlink b hne hl)

end Db

/-- Allocation succeeds. -/
def Call.HasMemory : Call → Prop
  | .insert _ _ ok => ok = true
  | .updateExpiry _ _ _ _ ok => ok = true
  | _ => True

/-! ### Deleting -/

section Delete
variable {s : Db} {k : Str} {a b : Addr} {pre post : List Addr}

theorem expiry_congr {s s' : Db} (h : s'.kv = s.kv) (b : Addr) :
    (s'.mem b).expiry = (s.mem b).expiry := congrArg Kv.expiry (congrFun h b)

/-- `heap_remove` leaves the place of the other entries. -/
theorem heapRemove_has_ne (hb : s.Back) (hne : b ≠ a) :
    (heapRemove s.toTtlHeap a).2.Has b ↔ s.Has b := by
  by_cases ha : s.Has a
  · rw [(heapRemove_removed hb ha).2.1.has]
    exact and_iff_left hne
  · rw [heapRemove_of_not_has ha]

theorem heapRemove_tracksBut (hb : s.Back) (h : s.TracksBut a) :
    (s.setTtl (heapRemove s.toTtlHeap a).2).TracksBut a :=
  h.frame (fun _ _ hl => hl) (fun b _ => expiry_congr (heapRemove_kv s.toTtlHeap a) b)
    fun _ hne => heapRemove_has_ne hb hne

theorem linked_of_unlink (hat : s.At k a pre post)
    (hl : (unlink s (stringFoldingHash k) (pre ++ post) a).Linked b) : s.Linked b := by
  obtain ⟨i, hi⟩ := hl
  rw [unlink_buckets] at hi
  refine ⟨i, ?_⟩
  rcases eq_or_ne i (stringFoldingHash k) with rfl | hik
  · rw [Function.update_self] at hi
    rw [hat.split]
    rcases List.mem_append.mp hi with hi | hi <;> simp [hi]
  · rwa [Function.update_of_ne hik] at hi

/-- An entry that is unlinked leaves the others tracked. -/
theorem unlink_tracks (ho : s.Owned) (h : s.TracksBut a) (hat : s.At k a pre post)
    (ho' : (unlink s (stringFoldingHash k) (pre ++ post) a).Owned) :
    (unlink s (stringFoldingHash k) (pre ++ post) a).Tracks := by
  have hhas : ∀ b, b ≠ a → ((unlink s (stringFoldingHash k) (pre ++ post) a).Has b ↔ s.Has b) := by
    intro b hne
    rw [unlink_ttl]
    split_ifs
    · exact heapRemove_has_ne ho.back hne
    · exact Iff.rfl
  have hbut : (unlink s (stringFoldingHash k) (pre ++ post) a).TracksBut a := h.frame
    (fun _ _ hl => linked_of_unlink hat hl) (fun b _ => expiry_congr (unlink_kv s _ _ a) b) hhas
  exact hbut.all ho'.back fun hl => absurd hl (unlink_not_linked ho.inv hat)

theorem lazyUnlink_tracks (ho : s.Owned) (h : s.Tracks) (hat : s.At k a pre post) :
    (lazyUnlink s k (pre ++ post) a).Tracks :=
  unlink_tracks (ho.heapRemove a).1 (heapRemove_tracksBut ho.back (h.but ho.back a))
    (hat.setTtl (heapRemove_kv s.toTtlHeap a)) (lazyUnlink_owned ho hat)

end Delete

/-! ### Setting -/

section Set
variable {s : Db}

/-- The new cell is linked nowhere yet. -/
theorem alloc_tracks (ho : s.Owned) (h : s.Tracks) (k v : Str) : (s.alloc k v).Tracks := by
  have hold : ∀ a, s.Linked a → (s.alloc k v).mem a = s.mem a := by
    rintro a ⟨i, hi⟩
    exact Function.update_of_ne (ne_of_lt (ho.inv.fresh i a hi)) _ _
  intro a hl
  have hl' : s.Linked a := hl
  rw [Occupies, hold a hl']
  exact h a hl'

theorem setValue_tracks (h : s.Tracks) (a : Addr) (v : Str) : (s.setValue a v).Tracks := by
  have hsame : ∀ b, ((s.setValue a v).mem b).expiry = (s.mem b).expiry ∧
      ((s.setValue a v).mem b).heapIndex = (s.mem b).heapIndex := by
    intro b
    rcases eq_or_ne b a with rfl | hne
    · simp [setValue]
    · simp [setValue, Function.update_of_ne hne]
  intro b hl
  rw [Occupies, (hsame b).1, (hsame b).2]
  exact h b hl

theorem link_tracks (ho : s.Owned) (h : s.Tracks) (k v : Str) (ho' : (s.link k v).Owned) :
    (s.link k v).Tracks := by
  have hbut : (s.alloc k v).TracksBut s.brk :=
    (alloc_tracks ho h k v).but (alloc_owned ho k v).back s.brk
  have hlink : ∀ b, b ≠ s.brk → (s.link k v).Linked b → (s.alloc k v).Linked b := by
    rintro b hne ⟨i, hi⟩
    refine ⟨i, ?_⟩
    change b ∈ Function.update s.buckets _ _ i at hi
    rcases eq_or_ne i (stringFoldingHash k) with rfl | hik
    · rw [Function.update_self, List.mem_append, List.mem_singleton] at hi
      exact hi.resolve_right hne
    · rwa [Function.update_of_ne hik] at hi
  refine (hbut.frame hlink (fun _ _ => rfl) fun _ _ => Iff.rfl).all ho'.back fun _ => ?_
  -- the new entry has no expiry and is in no slot
  have hcell : (s.link k v).mem s.brk = ⟨k, v, -1, sizeMax⟩ := Function.update_self ..
  rw [hcell]
  refine iff_of_false (not_not.mpr rfl) fun hc => ?_
  obtain ⟨i, hi⟩ := ho.linked s.brk hc
  exact absurd (ho.inv.fresh i _ hi) (lt_irrefl _)

end Set

/-! ### EXPIRE -/

section Expire
variable {s : Db} {k : Str} {a : Addr} {pre post : List Addr}

/-- With memory, EXPIRE of a live entry leaves it in the heap, with its new expiry, and the others
    tracked. -/
theorem renewExpiry_tracksBut (ho : s.Owned) (h : s.Tracks) (hat : s.At k a pre post)
    (duration now : ℤ) :
    let s' := (renewExpiry s a duration now true).1
    s'.TracksBut a ∧ s'.Linked a ∧ s'.Has a ∧ (s'.mem a).expiry = timeT (now + duration) := by
  -- out of the heap
  set s1 := if (s.mem a).heapIndex ≠ sizeMax then s.setTtl (heapRemove s.toTtlHeap a).2 else s
    with hs1
  have h1 : s1.Back ∧ ¬ s1.Has a ∧ s1.buckets = s.buckets ∧ s1.TracksBut a := by
    have hbut := h.but ho.back a
    rw [hs1]
    split_ifs with hidx
    · obtain ⟨ho1, hno⟩ := ho.heapRemove a
      exact ⟨ho1.back, hno, rfl, heapRemove_tracksBut ho.back hbut⟩
    · exact ⟨ho.back, fun hc => hidx (ho.index_ne hc), rfl, hbut⟩
  obtain ⟨hb1, hno, hbuckets, hbut1⟩ := h1
  -- a new expiry
  set s2 := s1.setExpiry a (timeT (now + duration)) with hs2
  have hmem : ∀ b, b ≠ a → s2.mem b = s1.mem b := fun b hne => Function.update_of_ne hne _ _
  have hexp : (s2.mem a).expiry = timeT (now + duration) := by simp [hs2, setExpiry]
  have hbut2 : s2.TracksBut a :=
    hbut1.frame (fun _ _ hl => hl) (fun b hne => by rw [hmem b hne]) fun _ _ => Iff.rfl
  have hb2 : s2.Back := by
    intro j hj
    have hne : s1.heap j ≠ a := fun hc => hno ⟨j, hj, hc⟩
    exact (congrArg Entry.heapIndex (hmem _ hne)).trans (hb1 j hj)
  -- and back in
  obtain ⟨cap, -, hins⟩ := (heapInsert_cases true s2.toTtlHeap a).resolve_left (by simp)
  have hpush : Inserted _ a (heapPush { s2.toTtlHeap with capacity := cap } a) :=
    heapPush_inserted (h := { s2.toTtlHeap with capacity := cap }) hb2 hno
  intro s'
  have hs' : s' = s2.setTtl (heapPush { s2.toTtlHeap with capacity := cap } a) := by
    change s2.setTtl (heapInsert true s2.toTtlHeap a).2 = _
    rw [hins]
  have hlinked : s2.Linked a := ⟨_, by rw [hs2]; exact hbuckets ▸ hat.mem⟩
  rw [hs']
  refine ⟨hbut2.frame (fun _ _ hl => hl) (fun b _ => expiry_congr hpush.kv b) fun b hne => ?_,
    hlinked, (hpush.has a).mpr (Or.inr rfl), ?_⟩
  · exact (hpush.has b).trans (or_iff_left hne)
  · exact (congrArg Kv.expiry (congrFun hpush.kv a)).trans hexp

end Expire

/-! ### Whole runs -/

/-- With memory, every call but a pinned delete keeps the heap and the expiries in step exactly when
    it gives no live key the expiry -1. -/
theorem Db.Tracks.step_iff {s : Db} (ho : s.Owned) (h : s.Tracks) {c : Call} (hm : c.HasMemory)
    (hp : ¬ s.Pinned c) : (s.step maxAllowed c).1.Tracks ↔ ¬ s.Untracks c := by
  have ho' := ho.step c hp
  have hyields := ho.inv.yields maxAllowed c
  generalize (s.step maxAllowed c).1 = s' at ho' hyields ⊢
  cases hyields with
  | same missing =>
    refine iff_of_true h ?_
    cases c with
    | updateExpiry k d now now' ok =>
      rintro ⟨e, hfind, -⟩
      rw [missing k d now now' ok rfl] at hfind
      cases hfind
    | _ => exact id
  | setValue => exact iff_of_true (setValue_tracks (alloc_tracks ho h _ _) _ _) id
  | full => exact iff_of_true (alloc_tracks ho h _ _) id
  | link => exact iff_of_true (link_tracks ho h _ _ ho') id
  | lazily looks hat expired =>
    refine iff_of_true (lazyUnlink_tracks ho h hat) ?_
    cases c with
    | updateExpiry k d now now' ok =>
      obtain ⟨rfl, rfl⟩ := looks
      rintro ⟨e, hfind, hlive, -⟩
      rw [hat.find] at hfind
      cases hfind
      exact hlive expired
    | _ => exact id
  | delete hat => exact iff_of_true (unlink_tracks ho (h.but ho.back _) hat ho') id
  | @renew k d now now' ok a pre post hat live =>
    obtain rfl : ok = true := hm
    obtain ⟨hbut, hl, hhas, hexp⟩ := renewExpiry_tracksBut ho h hat d now'
    constructor
    · rintro ht ⟨e, -, -, hminus⟩
      exact (ht a hl).mpr ((occupies_iff ho'.back a).mpr hhas) (hexp.trans hminus)
    · intro hno
      refine hbut.all ho'.back fun _ => iff_of_true (fun hc => hno ?_) hhas
      exact ⟨_, hat.find, live, hexp.symm.trans hc⟩

/-- At a start nothing is in the heap. -/
theorem Started.tracks_iff {s : Db} (h : Started s) :
    s.Tracks ↔ ∀ i, ∀ e ∈ s.chain i, e.expiry = -1 := by
  obtain ⟨-, h0⟩ := h.inv_empty
  have hno : ∀ a, ¬ s.Occupies a := fun a ha => by
    have hlt := ha.1
    rw [show s.size = 0 from h0] at hlt
    omega
  constructor
  · intro ht i e he
    obtain ⟨a, ha, rfl⟩ := List.mem_map.mp he
    exact not_not.mp fun hc => hno a ((ht a ⟨i, ha⟩).mp hc)
  · rintro hall a ⟨i, ha⟩
    exact iff_of_false (not_not.mpr (hall i _ (List.mem_map_of_mem ha))) (hno a)

/-- A start from a file leaves no expiry exactly when every record it was written of had the expiry
    `LONG_MAX` or is dropped. -/
theorem Storable.permanent_iff {t : Table} (h : Storable t) {now : ℤ} {l : Loader}
    (ht : l.db.table = htInit.table.appendAll (reloads (fun _ => loadAt now) 0 (dataset t))) :
    (∀ i, ∀ e ∈ l.db.chain i, e.expiry = -1) ↔
      ∀ i, ∀ e ∈ t.chains i, e.expiry = longMax ∨ min longMax (e.expiry % 2 ^ 64) ≤ now := by
  constructor
  · intro hall i e he
    rw [or_iff_not_imp_left]
    intro hmax
    by_contra hlate
    obtain ⟨m, hm⟩ := h.rebuild_find ht he
    rw [Kv.reload, if_neg hmax] at hm
    have hexp := hall _ _ (Table.mem_of_find (hm.trans (if_neg hlate)))
    change min longMax (e.expiry % 2 ^ 64) = -1 at hexp
    simp only [longMax] at hexp
    omega
  · intro hall i e' he'
    obtain ⟨e, he, m, hm⟩ := h.reload_of_mem ht he'
    rcases hall i e he with hmax | hle
    · rw [Kv.reload_max hmax] at hm
      cases hm
      rfl
    · unfold Kv.reload at hm
      dsimp only at hm
      split_ifs at hm with hmax hlate
      · cases hm; rfl
      · exact absurd hle hlate

/-- CORRECT: along a run with memory and without pinned deletes, the linked entries with an expiry
    are those in the heap in every state, exactly when the start has none and no EXPIRE gives a live
    key the expiry -1; and a start from the file of a store with plain words whose lines fit has
    none exactly when each record had the expiry `LONG_MAX` or is dropped. -/
theorem heap_tracks_ttl_iff {s₀ : Db} (h : Started s₀) {calls : List Call}
    (hm : ∀ c ∈ calls, c.HasMemory) (hp : Mealy.Never (Db.step maxAllowed) Pinned s₀ calls) :
    (Mealy.Always (Db.step maxAllowed) Tracks s₀ calls ↔
      (∀ i, ∀ e ∈ s₀.chain i, e.expiry = -1) ∧
        Mealy.Never (Db.step maxAllowed) Untracks s₀ calls) ∧
    ∀ (n : Node) (disk : Option Str) (file : Str) (now : ℤ) (code : Err) (l : Loader), Reached n →
      PlainWords n.db → LinesFit n.db →
      fetchDatasetFromMemory true (fun _ => true) n.db.table disk = .ok (0, some file) →
      rebuildFromSavefile (fun _ => loadAt now) (some file) (Loader.start htInit) = .ok (code, l) →
      ((∀ i, ∀ e ∈ l.db.chain i, e.expiry = -1) ↔
        ∀ i, ∀ e ∈ n.db.chain i,
          e.expiry = longMax ∨ min longMax (e.expiry % 2 ^ 64) ≤ now) := by
  refine ⟨?_, fun n disk file now code l hn hplain hl hsave hload => ?_⟩
  · have hok : Mealy.Never (Db.step maxAllowed) (fun s c => ¬ (c.HasMemory ∧ ¬ s.Pinned c)) s₀
        calls := by
      intro pre c hpre
      rw [not_not]
      exact ⟨hm c (hpre.subset (by simp)), hp pre c hpre⟩
    have hrun : s₀.Tracks → (Mealy.Always (Db.step maxAllowed) Tracks s₀ calls ↔
        Mealy.Never (Db.step maxAllowed) Untracks s₀ calls) := fun h0 =>
      Mealy.always_iff_never_within (I := fun s => s.Owned ∧ s.Tracks) (P := Tracks)
        (fun _ hs => hs.2)
        (fun _ c hs hc hu => ⟨hs.1.step c hc.2, (Tracks.step_iff hs.1 hs.2 hc.1 hc.2).mpr hu⟩)
        (fun _ _ hs hc hu ht => (Tracks.step_iff hs.1 hs.2 hc.1 hc.2).mp ht hu)
        ⟨h.owned, h0⟩ hok
    rw [← h.tracks_iff]
    exact ⟨fun ha => ⟨ha [] List.nil_prefix, (hrun (ha [] List.nil_prefix)).mp ha⟩,
      fun hc => (hrun hc.1).mpr hc.2⟩
  · have hst := hn.storable hplain hl
    exact hst.permanent_iff (hst.of_rebuild hsave (fun _ => rfl) hload)

/-- SET k v and EXPIRE k 5, at time 100, put k into the heap. -/
theorem heap_tracks_ttl_iff_short :
    Mealy.Always (Db.step maxAllowed) Tracks htInit
      [.insert (str "k") (str "v") true, .updateExpiry (str "k") 5 100 100 true] := by
  refine (heap_tracks_ttl_iff .empty ?_ ?_).1.mpr ⟨by decide +kernel, ?_⟩
  · simp [Call.HasMemory]
  · rw [Mealy.never_cons, Mealy.never_cons]
    exact ⟨id, id, fun pre c hpre => by simp at hpre⟩
  · rw [Mealy.never_cons, Mealy.never_cons]
    refine ⟨id, ?_, fun pre c hpre => by simp at hpre⟩
    rintro ⟨e, -, -, hminus⟩
    exact absurd hminus (by decide)

/-- After a restart at 102 the store has a key with a TTL and an empty heap. -/
theorem restart_leaves_heap_empty :
    ¬ ∀ (n : Node), Reached n → ∀ disk file now code l,
      fetchDatasetFromMemory true (fun _ => true) n.db.table disk = .ok (0, some file) →
        rebuildFromSavefile (fun _ => loadAt now) (some file) (Loader.start htInit) =
          .ok (code, l) →
        ∀ calls : List Call, (∀ c ∈ calls, c.HasMemory) → (l.db.after calls).Tracks := by
  intro h
  obtain ⟨hplain, hlines, hbuffer, hfind⟩ := shortOnly_fits
  have hst := shortOnly_reached.storable hplain hlines
  obtain ⟨l, hload, -, -, ht⟩ := hst.rebuild (fun _ => loadAt 102) fun _ => rfl
  have htracks := h _ shortOnly_reached none _ 102 _ l (fetch_of_fits hbuffer none) hload []
    (by simp)
  have hall := (Started.rebuilt hload).tracks_iff.mp htracks
  have hcond := (hst.permanent_iff ht).mp hall
  rcases hcond _ _ (Table.mem_of_find hfind) with hmax | hle
  · exact absurd hmax (by decide)
  · exact absurd hle (by decide)

end SahDB
