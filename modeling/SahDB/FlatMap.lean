import SahDB.Calls
import Mathlib.Data.List.AList

/-! The store as one flat map.

    `Flat` is what the store is for: a finite map from keys to a value and an expiry, with a bound
    on its size. `Db.step` is the program: one call of `hash.c` on buckets, chains and heap. The
    relation `Represents` says that a table holds exactly the entries of a map; each call keeps it
    and gives the same answer, but for a GET that writes its value past the response buffer. So over
    any run without such a GET the two cannot be told apart. -/

namespace SahDB

/-- Allocation succeeds, and the sum of an EXPIRE neither overflows nor is `LONG_MAX`. -/
def Call.Plain : Call → Prop
  | .insert _ _ ok => ok = true
  | .updateExpiry _ d _ now' ok =>
    ok = true ∧ longMin ≤ now' + d ∧ now' + d ≤ longMax ∧ now' + d ≠ longMax
  | _ => True

/-- The call is a GET of a value that does not fit the response buffer. -/
def Db.Overruns (s : Db) : Call → Prop
  | .get k now => s.table.Overlong k now
  | _ => False

/-! ### The flat map -/

/-- A finite map from keys to a value and an expiry. -/
abbrev Flat := AList fun _ : Str => Str × ℤ

namespace Flat

def size (m : Flat) : ℕ := m.keys.length

/-- The entry of `k` if it is live; an expired one is first unmapped. -/
def touch (m : Flat) (k : Str) (now : ℤ) : Option (Str × ℤ) × Flat :=
  match m.lookup k with
  | none => (none, m)
  | some (v, t) => if t ≠ -1 ∧ t ≤ now then (none, m.erase k) else (some (v, t), m)

/-- SET: replace the value and keep the expiry, or map a new key if there is room. -/
def set (bound : ℕ) (m : Flat) (k v : Str) : Err × Flat :=
  match m.lookup k with
  | some (_, t) => (0, m.insert k (v, t))
  | none => if m.size + 1 ≥ bound then (errFull, m) else (0, m.insert k (v, -1))

/-- DELETE -/
def delete (m : Flat) (k : Str) : Err × Flat :=
  if (m.lookup k).isSome then (0, m.erase k) else (dbErrKeyNotexist, m)

/-- A read, with the text for a missing key and the text for a live one. -/
def read (missing : Str) (found : Str × ℤ → Str) (m : Flat) (k : Str) (now : ℤ) : Flat × Reply :=
  match m.touch k now with
  | (none, m') => (m', ⟨dbErrKeyNotexist, missing⟩)
  | (some e, m') => (m', ⟨0, found e⟩)

/-- EXPIRE: a live key expires at `now' + duration`. -/
def expire (m : Flat) (k : Str) (duration now now' : ℤ) : Flat × Reply :=
  match m.touch k now with
  | (none, m') => (m', ⟨dbErrKeyNotexist, str "NULL"⟩)
  | (some (v, _), m') => (m'.insert k (v, now' + duration), ⟨0, str "OK"⟩)

/-- One call on the map. -/
def step (bound : ℕ) (m : Flat) : Call → Flat × Answer
  | .insert k v _ => let r := m.set bound k v; (r.2, .reply (ackReply r.1))
  | .get k now => let r := m.read (str "ERR") (fun e => e.1) k now; (r.1, .reply r.2)
  | .getExpiry k now =>
    let r := m.read (red ++ str "ERR" ++ reset)
      (fun e => if e.2 ≠ -1 then showSizeT e.2 else red ++ str "NULL" ++ reset) k now
    (r.1, .reply r.2)
  | .exists_ k now =>
    let r := m.read (bold ++ red ++ str "FALSE" ++ reset)
      (fun _ => bold ++ green ++ str "TRUE" ++ reset) k now
    (r.1, .reply r.2)
  | .getKv k now => let r := m.touch k now; (r.2, .entry (r.1.map fun e => ⟨k, e.1, e.2⟩))
  | .delete k => let r := m.delete k; (r.2, .reply (ackReply r.1))
  | .updateExpiry k d now now' _ => let r := m.expire k d now now'; (r.1, .reply r.2)

end Flat

section Keys
variable {κ β : Type*} [DecidableEq κ] {m : AList fun _ : κ => β} {k : κ}

theorem length_keys_insert_of_mem (hk : k ∈ m) (b : β) :
    (m.insert k b).keys.length = m.keys.length := by
  have hmem : k ∈ m.keys := AList.mem_keys.mp hk
  have hpos := List.length_pos_of_mem hmem
  rw [AList.keys_insert, List.length_cons, List.length_erase_of_mem hmem]
  omega

theorem length_keys_insert_of_notMem (hk : k ∉ m) (b : β) :
    (m.insert k b).keys.length = m.keys.length + 1 := by
  have hmem : k ∉ m.keys := fun h => hk (AList.mem_keys.mpr h)
  rw [AList.keys_insert, List.length_cons, List.erase_of_not_mem hmem]

theorem length_keys_erase (hk : k ∈ m) : (m.erase k).keys.length = m.keys.length - 1 := by
  rw [AList.keys_erase, List.length_erase_of_mem (AList.mem_keys.mp hk)]

end Keys

/-! ### A table represents a map -/

/-- The table and the map have the same entries, and the count is the size. -/
structure Represents (t : Table) (m : Flat) : Prop where
  wf : t.Inv
  lookup : ∀ k, m.lookup k = (t.find k).map fun e => (e.value, e.expiry)
  size : m.size = t.count

namespace Represents
variable {t : Table} {m : Flat} {k : Str}

theorem lookup_none (h : Represents t m) (hf : t.find k = none) : m.lookup k = none := by
  rw [h.lookup, hf]; rfl

theorem lookup_some (h : Represents t m) {e : Kv} (hf : t.find k = some e) :
    m.lookup k = some (e.value, e.expiry) := by rw [h.lookup, hf]; rfl

theorem size_insert_of_some {e : Str × ℤ} (hl : m.lookup k = some e) (e' : Str × ℤ) :
    Flat.size (m.insert k e') = m.size :=
  length_keys_insert_of_mem (AList.lookup_isSome.mp (by rw [hl]; rfl)) e'

theorem size_insert_of_none (hl : m.lookup k = none) (e : Str × ℤ) :
    Flat.size (m.insert k e) = m.size + 1 :=
  length_keys_insert_of_notMem (AList.lookup_eq_none.mp hl) e

theorem size_erase {e : Str × ℤ} (hl : m.lookup k = some e) :
    Flat.size (m.erase k) = m.size - 1 :=
  length_keys_erase (AList.lookup_isSome.mp (by rw [hl]; rfl))

/-- Changing a record in place is mapping its key again. -/
theorem modify (h : Represents t m) {e : Kv} (hf : t.find k = some e) {f : Kv → Kv}
    (hkey : ∀ e, (f e).key = e.key) :
    Represents (t.modify k f) (m.insert k ((f e).value, (f e).expiry)) where
  wf := h.wf.modify k hkey
  lookup j := by
    rcases eq_or_ne j k with rfl | hj
    · rw [AList.lookup_insert, Table.find_modify_self t j hkey, hf]; rfl
    · rw [AList.lookup_insert_ne hj, Table.find_modify_ne t hkey hj, h.lookup]
  size := by rw [size_insert_of_some (h.lookup_some hf), h.size]; rfl

theorem append (h : Represents t m) (v : Str) (hf : t.find k = none)
    (hb : t.count + 2 < 2 ^ 64) : Represents (t.append ⟨k, v, -1⟩) (m.insert k (v, -1)) where
  wf := h.wf.append hf hb
  lookup j := by
    rcases eq_or_ne j k with rfl | hj
    · rw [AList.lookup_insert, Table.find_append_self (e := ⟨j, v, -1⟩) hf]; rfl
    · rw [AList.lookup_insert_ne hj, Table.find_append_ne t (e := ⟨k, v, -1⟩) hj, h.lookup]
  size := by rw [size_insert_of_none (h.lookup_none hf), h.size]; rfl

theorem remove (h : Represents t m) {e : Kv} (hf : t.find k = some e) :
    Represents (t.remove k) (m.erase k) where
  wf := h.wf.remove hf
  lookup j := by
    rcases eq_or_ne j k with rfl | hj
    · rw [AList.lookup_erase, Table.find_remove_self h.wf]; rfl
    · rw [AList.lookup_erase_ne hj, Table.find_remove_ne t hj, h.lookup]
  size := by rw [size_erase (h.lookup_some hf), h.size]; rfl

/-! ### Each operation agrees with the map -/

theorem insert (h : Represents t m) {bound : ℕ} (hb : bound < 2 ^ 64) (k v : Str) :
    Represents (t.insert bound k v).2 (m.set bound k v).2 ∧
      (t.insert bound k v).1 = (m.set bound k v).1 := by
  cases hf : t.find k with
  | some e =>
    rw [Table.insert_found v bound hf, Flat.set, h.lookup_some hf]
    exact ⟨h.modify hf fun _ => rfl, rfl⟩
  | none =>
    rw [Flat.set, h.lookup_none hf]
    dsimp only
    by_cases hfull : bound ≤ t.count + 1
    · rw [Table.insert_full v hf hfull, if_pos (h.size ▸ hfull)]
      exact ⟨h, rfl⟩
    · rw [Table.insert_new v hf (not_le.mp hfull), if_neg (h.size ▸ hfull)]
      exact ⟨h.append v hf (by omega), rfl⟩

theorem delete (h : Represents t m) (k : Str) :
    Represents (t.delete k).2 (m.delete k).2 ∧ (t.delete k).1 = (m.delete k).1 := by
  cases hf : t.find k with
  | none =>
    rw [Table.delete_none hf, Flat.delete, h.lookup_none hf]
    exact ⟨h, rfl⟩
  | some e =>
    rw [Table.delete_found hf, Flat.delete, h.lookup_some hf]
    exact ⟨h.remove hf, rfl⟩

theorem touch (h : Represents t m) (k : Str) (now : ℤ) :
    Represents (t.touch k now).2 (m.touch k now).2 ∧
      (m.touch k now).1 = (t.touch k now).1.map fun e => (e.value, e.expiry) := by
  cases hf : t.find k with
  | none =>
    rw [Table.touch_none now hf, Flat.touch, h.lookup_none hf]
    exact ⟨h, rfl⟩
  | some e =>
    rw [Flat.touch, h.lookup_some hf]
    dsimp only
    by_cases he : e.Expired now
    · rw [Table.touch_expired hf he, if_pos (show e.expiry ≠ -1 ∧ e.expiry ≤ now from he)]
      exact ⟨h.remove hf, rfl⟩
    · rw [Table.touch_live hf he, if_neg (show ¬(e.expiry ≠ -1 ∧ e.expiry ≤ now) from he)]
      exact ⟨h, rfl⟩

end Represents

/-! ### The store refines the map -/

/-- The store is well formed and its table represents the map. -/
def Simulates (s : Db) (m : Flat) : Prop := s.Inv ∧ Represents s.table m

theorem simulates_init : Simulates htInit ∅ := by
  refine ⟨htInit_inv, htInit_inv.wf, fun k => ?_, rfl⟩
  rw [AList.lookup_empty]
  rfl

section Step
variable {s : Db} {m : Flat}

theorem simulates_touch (h : Simulates s m) (k : Str) (now : ℤ) :
    Simulates (hashGetKv s k now).1 (m.touch k now).2 := by
  obtain ⟨hi, ht, -⟩ := hashGetKv_spec h.1 k now
  exact ⟨hi, ht ▸ (h.2.touch k now).1⟩

theorem simulates_read (h : Simulates s m) (missing : Str) (found : Entry → Str)
    (found' : Str × ℤ → Str) (hf : ∀ e, found e = found' (e.value, e.expiry)) (k : Str) (now : ℤ) :
    Simulates (hashRead missing found s k now).1 (m.read missing found' k now).1 ∧
      (hashRead missing found s k now).2 = (m.read missing found' k now).2 := by
  obtain ⟨hi, ht, hr⟩ := hashRead_spec h.1 missing found
    (fun e => found' (e.value, e.expiry)) hf k now
  obtain ⟨hR, hout⟩ := h.2.touch k now
  rw [hr]
  unfold Flat.read
  generalize m.touch k now = r at hR hout
  obtain ⟨o, m'⟩ := r
  dsimp only at hR hout
  rw [← ht] at hR
  cases hto : (s.table.touch k now).1 with
  | none => rw [hto] at hout; subst hout; exact ⟨⟨hi, hR⟩, rfl⟩
  | some e => rw [hto] at hout; subst hout; exact ⟨⟨hi, hR⟩, rfl⟩

theorem simulates_expire (h : Simulates s m) (k : Str) (now : ℤ) {d now' : ℤ}
    (h0 : longMin ≤ now' + d) (h1 : now' + d ≤ longMax) :
    Simulates (hashUpdateExpiry s k d now now' true).1 (m.expire k d now now').1 ∧
      (hashUpdateExpiry s k d now now' true).2 = (m.expire k d now now').2 := by
  obtain ⟨hR, hout⟩ := h.2.touch k now
  have hsim := simulates_touch h k now
  rw [hashUpdateExpiry_eq]
  unfold Flat.expire
  generalize m.touch k now = r at hR hout hsim
  obtain ⟨o, m'⟩ := r
  dsimp only at hR hout hsim
  rcases hashGetKv_cases s k now with ⟨hn, heq⟩ | ⟨a, pre, post, hat, ⟨he, heq⟩ | ⟨he, heq⟩⟩ <;>
    rw [heq] at hsim ⊢
  · rw [Table.touch_none now hn] at hout
    subst hout
    exact ⟨hsim, rfl⟩
  · rw [Table.touch_expired hat.find he] at hout
    subst hout
    exact ⟨hsim, rfl⟩
  · rw [Table.touch_live hat.find he] at hout
    subst hout
    obtain ⟨hi, ht⟩ := renewExpiry_table h.1 hat d now' true
    rw [timeT_of_mem h0 h1] at ht
    refine ⟨⟨hi, ?_⟩, renewExpiry_ok s a d now'⟩
    rw [ht]
    exact hsim.2.modify hat.find fun _ => rfl

/-- One call keeps the relation, and gives the same answer if it does not overrun its buffer. -/
theorem simulates_step (bound : UInt64) (h : Simulates s m) (c : Call) (hc : c.Plain) :
    Simulates (s.step bound c).1 (m.step bound.toNat c).1 ∧
      (¬ s.Overruns c → (s.step bound c).2 = (m.step bound.toNat c).2) := by
  cases c with
  | insert k v ok =>
    cases (show ok = true from hc)
    obtain ⟨hf, ht, hr⟩ := hashInsert_spec h.1 k v bound
    obtain ⟨hR, hcode⟩ := h.2.insert (UInt64.toNat_lt bound) k v
    refine ⟨⟨.of_table hf ht hR.wf, ?_⟩, fun _ => ?_⟩
    · change Represents (hashInsert s k v true bound).1.table _
      rw [ht]; exact hR
    · change Answer.reply (hashInsert s k v true bound).2 = _
      rw [hr, hcode]; rfl
  | get k now =>
    obtain ⟨hs, hr⟩ := simulates_read h (str "ERR") Entry.value Prod.fst (fun _ => rfl) k now
    refine ⟨?_, fun hfits => ?_⟩
    · rw [Db.step_get_fst, ← lookupValue_fst]
      exact hs
    · rcases s.step_get_cases bound k now with ⟨hlong, -⟩ | ⟨-, heq⟩
      · exact absurd hlong hfits
      · rw [heq]
        exact congrArg Answer.reply hr
  | getExpiry k now =>
    obtain ⟨hs, hr⟩ := simulates_read h (red ++ str "ERR" ++ reset)
      (fun e => if e.expiry ≠ -1 then showSizeT e.expiry else red ++ str "NULL" ++ reset)
      (fun e => if e.2 ≠ -1 then showSizeT e.2 else red ++ str "NULL" ++ reset) (fun _ => rfl) k now
    exact ⟨hs, fun _ => congrArg Answer.reply hr⟩
  | exists_ k now =>
    obtain ⟨hs, hr⟩ := simulates_read h (bold ++ red ++ str "FALSE" ++ reset)
      (fun _ => bold ++ green ++ str "TRUE" ++ reset)
      (fun _ => bold ++ green ++ str "TRUE" ++ reset) (fun _ => rfl) k now
    exact ⟨hs, fun _ => congrArg Answer.reply hr⟩
  | getKv k now =>
    refine ⟨simulates_touch h k now, fun _ => congrArg Answer.entry ?_⟩
    rw [(hashGetKv_spec h.1 k now).2.2, (h.2.touch k now).2, Option.map_map]
    cases hto : (s.table.touch k now).1 with
    | none => rfl
    | some e =>
      have hk := Table.key_of_touch hto
      subst hk
      rfl
  | delete k =>
    obtain ⟨hi, ht, hr⟩ := hashDelete_spec h.1 k
    obtain ⟨hR, hcode⟩ := h.2.delete k
    refine ⟨⟨hi, ?_⟩, fun _ => ?_⟩
    · change Represents (hashDelete s k).1.table _
      rw [ht]; exact hR
    · change Answer.reply (hashDelete s k).2 = _
      rw [hr, hcode]; rfl
  | updateExpiry k d now now' ok =>
    obtain ⟨rfl, h0, h1, -⟩ := hc
    obtain ⟨hs, hr⟩ := simulates_expire h k now h0 h1
    exact ⟨hs, fun _ => congrArg Answer.reply hr⟩

/-- On the map: the call is a GET of a value that does not fit the response buffer. -/
def Flat.Overruns (m : Flat) : Call → Prop
  | .get k now =>
    ∃ e, m.lookup k = some e ∧ ¬ (e.2 ≠ -1 ∧ e.2 ≤ now) ∧ maxRespLen ≤ e.1.length
  | _ => False

theorem Simulates.overruns_iff (h : Simulates s m) (c : Call) : s.Overruns c ↔ m.Overruns c := by
  cases c with
  | get k now =>
    constructor
    · rintro ⟨e, hfind, hlive, hlong⟩
      exact ⟨_, h.2.lookup_some hfind, hlive, hlong⟩
    · rintro ⟨e, hl, hlive, hlong⟩
      rw [h.2.lookup] at hl
      obtain ⟨kv, hfind, rfl⟩ := Option.map_eq_some_iff.mp hl
      exact ⟨kv, hfind, hlive, hlong⟩
  | _ => exact Iff.rfl

/-- The map does not fault where the program does. -/
theorem step_ne_of_overruns (bound : UInt64) (s : Db) (m : Flat) {c : Call} (hc : s.Overruns c) :
    (s.step bound c).2 ≠ (m.step bound.toNat c).2 := by
  cases c with
  | get k now =>
    rcases s.step_get_cases bound k now with ⟨-, -, heq⟩ | ⟨hfits, -⟩
    · rw [heq]
      exact Answer.noConfusion
    · exact absurd hc hfits
  | _ => exact hc.elim

end Step

/-- CORRECT: over a sequence of calls from the empty store, and for every capacity bound, the
    program answers as one flat map does exactly when no GET of it finds a value of `MAX_RESP_LEN`
    bytes or more. -/
theorem calls_refine_flat_map_iff (bound : UInt64) (calls : List Call)
    (hc : ∀ c ∈ calls, c.Plain) :
    Mealy.outputs (Db.step bound) htInit calls = Mealy.outputs (Flat.step bound.toNat) ∅ calls ↔
      Mealy.Never (Db.step bound) Db.Overruns htInit calls :=
  Mealy.outputs_eq_iff_never (R := Simulates)
    (fun _ _ c h hc hfits =>
      ⟨(simulates_step bound h c hc).1, (simulates_step bound h c hc).2 hfits⟩)
    (fun s m _ _ hlong => step_ne_of_overruns bound s m hlong) simulates_init hc

/-- A key is set, expires in a second, and is missing two seconds later; a table of capacity 3 takes
    a second key in its place. -/
theorem calls_refine_flat_map_iff_expired :
    let calls : List Call := [.insert (str "a") (str "1") true,
      .updateExpiry (str "a") 1 100 100 true, .insert (str "b") (str "2") true,
      .get (str "a") 102, .insert (str "b") (str "2") true]
    Mealy.outputs (Db.step 3) htInit calls = Mealy.outputs (Flat.step 3) ∅ calls := by
  intro calls
  refine (calls_refine_flat_map_iff 3 calls fun c hc => ?_).mpr ?_
  · simp only [calls, List.mem_cons, List.not_mem_nil, or_false] at hc
    rcases hc with rfl | rfl | rfl | rfl | rfl <;> simp [Call.Plain, longMin, longMax]
  · simp only [calls, Mealy.never_cons]
    refine ⟨id, id, id, ?_, id, Mealy.never_nil⟩
    rintro ⟨e, hfind, -, hlong⟩
    rw [show Table.find _ (str "a") = some ⟨str "a", str "1", 101⟩ by decide +kernel] at hfind
    cases hfind
    exact absurd hlong (by decide)

/-- SET k of 8192 bytes and GET k: the map answers them, the program writes the last NUL behind its
    buffer. -/
theorem long_get_overruns :
    ¬ ∀ (bound : UInt64) (calls : List Call), (∀ c ∈ calls, c.Plain) →
      Mealy.outputs (Db.step bound) htInit calls =
        Mealy.outputs (Flat.step bound.toNat) ∅ calls := by
  intro h
  let v : Str := List.replicate maxRespLen 97
  have hout := h maxAllowed [.insert (str "k") v true, .get (str "k") 0]
    (by simp [Call.Plain])
  have hget := List.head_eq_of_cons_eq (List.cons.inj hout).2
  have hsim := (simulates_step maxAllowed simulates_init (.insert (str "k") v true) rfl).1
  refine step_ne_of_overruns maxAllowed _ _ (c := .get (str "k") 0) ?_ hget
  obtain ⟨e, hfind, hval⟩ : ∃ e, (htInit.step maxAllowed (.insert (str "k") v true)).1.table.find
      (str "k") = some e ∧ (e.value, e.expiry) = (v, (-1 : ℤ)) := by
    have hl := hsim.2.lookup (str "k")
    have hmap : (Flat.step maxAllowed.toNat ∅ (.insert (str "k") v true)).1.lookup (str "k") =
        some (v, -1) := AList.lookup_insert _
    rw [hmap] at hl
    exact Option.map_eq_some_iff.mp hl.symm
  obtain ⟨hv, hexp⟩ := Prod.mk.inj hval
  exact ⟨e, hfind, fun hx => hx.1 hexp, by rw [hv, List.length_replicate]⟩

end SahDB
