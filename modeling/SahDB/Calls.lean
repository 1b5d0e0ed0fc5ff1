import SahDB.HashSpec
import SahDB.Lib.Mealy

/-! The store as a machine: the calls of `hash.c` one after another, from any state, with any clock
    readings and allocation outcomes. What a call can do to the store is said once (`Db.Yields`),
    for the invariants to go by. Every call keeps the representation invariant, and a call that
    finds the table full changes nothing in it. -/

namespace SahDB

/-- A call of `hash.c`, with the clock readings and allocation outcomes it meets. -/
inductive Call where
  | insert (k v : Str) (mallocOk : Bool)
  | get (k : Str) (now : ℤ)
  | getExpiry (k : Str) (now : ℤ)
  | exists_ (k : Str) (now : ℤ)
  | getKv (k : Str) (now : ℤ)
  | delete (k : Str)
  | updateExpiry (k : Str) (duration now now' : ℤ) (reallocOk : Bool)

/-- What a call answers: a code and a text, or the entry `hash_get_kv` returns; or it faults. -/
inductive Answer where
  | reply (r : Reply)
  | entry (e : Option Kv)
  | fault (f : Fault)
  deriving DecidableEq, Repr

/-- One call on the store, with `bound` for `MAX_ALLOWED`. -/
def Db.step (bound : UInt64) (s : Db) : Call → Db × Answer
  | .insert k v ok => let r := hashInsert s k v ok bound; (r.1, .reply r.2)
  | .get k now =>
    match hashGet s k now with
    | .ok r => (r.1, .reply r.2)
    | .error f => (s, .fault f)
  | .getExpiry k now => let r := hashGetExpiry s k now; (r.1, .reply r.2)
  | .exists_ k now => let r := hashExists s k now; (r.1, .reply r.2)
  | .getKv k now => let r := hashGetKv s k now; (r.1, .entry (r.2.map r.1.kv))
  | .delete k => let r := hashDelete s k; (r.1, .reply r.2)
  | .updateExpiry k d now now' ok => let r := hashUpdateExpiry s k d now now' ok; (r.1, .reply r.2)

/-- GET answers what it has looked up, or faults on a store that stays as it is. -/
theorem Db.step_get_cases (bound : UInt64) (s : Db) (k : Str) (now : ℤ) :
    (s.table.Overlong k now ∧ hashGetKv s k now = (s, (hashGetKv s k now).2) ∧
      s.step bound (.get k now) = (s, .fault .outOfBounds)) ∨
    (¬ s.table.Overlong k now ∧ s.step bound (.get k now) =
      ((lookupValue s k now).1, .reply (lookupValue s k now).2)) := by
  rcases hashGet_cases s k now with ⟨hlong, hsame, heq⟩ | ⟨hfits, heq⟩
  · exact Or.inl ⟨hlong, hsame, by rw [step, heq]⟩
  · exact Or.inr ⟨hfits, by rw [step, heq]⟩

theorem Db.step_get_of_ok (bound : UInt64) {s : Db} {k : Str} {now : ℤ} {r : Db × Reply}
    (h : hashGet s k now = .ok r) : s.step bound (.get k now) = (r.1, .reply r.2) := by
  rw [step, h]

theorem Db.step_get_of_error (bound : UInt64) {s : Db} {k : Str} {now : ℤ} {f : Fault}
    (h : hashGet s k now = .error f) : s.step bound (.get k now) = (s, .fault f) := by
  rw [step, h]

theorem Db.step_get_fst (bound : UInt64) (s : Db) (k : Str) (now : ℤ) :
    (s.step bound (.get k now)).1 = (hashGetKv s k now).1 := by
  rcases s.step_get_cases bound k now with ⟨-, hsame, heq⟩ | ⟨-, heq⟩
  · rw [heq, hsame]
  · rw [heq, lookupValue_fst]

/-! ### What a call does -/

/-- The call first looks this key up, at this time. -/
def Call.Looks (k : Str) (now : ℤ) : Call → Prop
  | .get j t | .getExpiry j t | .exists_ j t | .getKv j t | .updateExpiry j _ t _ _ =>
    j = k ∧ t = now
  | _ => False

/-- The stores a call can yield: the one it has found, also where the key of an EXPIRE is missing;
    one with a new value, cell or entry; or one without an entry or with another expiry for it. -/
inductive Db.Yields (bound : UInt64) (s : Db) : Call → Db → Prop
  | same {c : Call}
      (missing : ∀ k d now now' ok, c = .updateExpiry k d now now' ok → s.table.find k = none) :
      Yields bound s c s
  | setValue {k v : Str} {a : Addr} {pre post : List Addr} (hat : s.At k a pre post) :
      Yields bound s (.insert k v true) ((s.alloc k v).setValue a v)
  | full {k v : Str} (missing : s.table.find k = none) (full : bound.toNat ≤ s.count + 1) :
      Yields bound s (.insert k v true) (s.alloc k v)
  | link {k v : Str} (missing : s.table.find k = none) (room : s.count + 1 < bound.toNat) :
      Yields bound s (.insert k v true) (s.link k v)
  | lazily {c : Call} {k : Str} {now : ℤ} {a : Addr} {pre post : List Addr}
      (looks : c.Looks k now) (hat : s.At k a pre post) (expired : (s.kv a).Expired now) :
      Yields bound s c (lazyUnlink s k (pre ++ post) a)
  | delete {k : Str} {a : Addr} {pre post : List Addr} (hat : s.At k a pre post) :
      Yields bound s (.delete k) (unlink s (stringFoldingHash k) (pre ++ post) a)
  | renew {k : Str} {d now now' : ℤ} {ok : Bool} {a : Addr} {pre post : List Addr}
      (hat : s.At k a pre post) (live : ¬ (s.kv a).Expired now) :
      Yields bound s (.updateExpiry k d now now' ok) (renewExpiry s a d now' ok).1

section Yields
variable {bound : UInt64} {s : Db}

/-- A call that only looks its key up. -/
theorem Db.yields_of_looks {c : Call} {k : Str} {now : ℤ} (hc : c.Looks k now)
    (hne : ∀ k d now now' ok, c ≠ .updateExpiry k d now now' ok) :
    s.Yields bound c (hashGetKv s k now).1 := by
  have hsame : s.Yields bound c s :=
    .same fun k d now now' ok heq => absurd heq (hne k d now now' ok)
  rcases hashGetKv_cases s k now with ⟨-, heq⟩ | ⟨a, pre, post, hat, ⟨he, heq⟩ | ⟨-, heq⟩⟩ <;>
    rw [heq]
  · exact hsame
  · exact .lazily hc hat he
  · exact hsame

theorem Db.Inv.yields (h : s.Inv) (bound : UInt64) (c : Call) :
    s.Yields bound c (s.step bound c).1 := by
  have hread : ∀ {c : Call} {k : Str} {now : ℤ} (missing : Str) (found : Entry → Str),
      c.Looks k now → (∀ k d now now' ok, c ≠ .updateExpiry k d now now' ok) →
        s.Yields bound c (hashRead missing found s k now).1 := by
    intro c k now missing found hc hne
    rw [hashRead_eq]
    exact yields_of_looks hc hne
  cases c with
  | insert k v ok =>
    cases ok with
    | false => exact .same nofun
    | true =>
      change s.Yields bound _ (hashInsert s k v true bound).1
      rcases hashInsert_cases h k v bound with
        ⟨a, pre, post, hat, heq⟩ | ⟨hn, hb, heq⟩ | ⟨hn, hb, heq⟩ <;> rw [heq]
      · exact .setValue hat
      · exact .full hn hb
      · exact .link hn hb
  | get k now =>
    rw [step_get_fst]
    exact yields_of_looks ⟨rfl, rfl⟩ nofun
  | getExpiry k now => exact hread _ _ ⟨rfl, rfl⟩ nofun
  | exists_ k now => exact hread _ _ ⟨rfl, rfl⟩ nofun
  | getKv k now => exact yields_of_looks ⟨rfl, rfl⟩ nofun
  | delete k =>
    change s.Yields bound _ (hashDelete s k).1
    rcases hashDelete_cases s k with ⟨-, heq⟩ | ⟨a, pre, post, hat, heq⟩ <;> rw [heq]
    · exact .same nofun
    · exact .delete hat
  | updateExpiry k d now now' ok =>
    change s.Yields bound _ (hashUpdateExpiry s k d now now' ok).1
    rw [hashUpdateExpiry_eq]
    rcases hashGetKv_cases s k now with ⟨hn, heq⟩ | ⟨a, pre, post, hat, ⟨he, heq⟩ | ⟨he, heq⟩⟩ <;>
      rw [heq]
    · refine .same fun k' d' t t' ok' hc => ?_
      cases hc
      exact hn
    · exact .lazily ⟨rfl, rfl⟩ hat he
    · exact .renew hat he

end Yields

/-! ### Every call keeps the invariant -/

theorem htInit_inv : htInit.Inv where
  fresh := by simp [Db.Fresh, htInit]
  wf := ⟨by simp [htInit, Db.table, Db.chain],
    by simp [htInit, Db.table, Db.chain, KeyedList.Distinct], by simp [htInit, Db.table, Db.chain],
    by simp [htInit, Db.table]⟩

section Step
open Db
variable {s : Db}

theorem hashRead_inv (h : s.Inv) (missing : Str) (found : Entry → Str) (k : Str) (now : ℤ) :
    (hashRead missing found s k now).1.Inv := by
  rw [hashRead_eq]
  exact (hashGetKv_spec h k now).1

theorem Db.Inv.step_inv (bound : UInt64) (h : s.Inv) (c : Call) : (s.step bound c).1.Inv := by
  cases c with
  | insert k v ok => exact hashInsert_inv h k v ok bound
  | get k now => exact step_get_fst bound s k now ▸ (hashGetKv_spec h k now).1
  | getExpiry k now => exact hashRead_inv h _ _ k now
  | exists_ k now => exact hashRead_inv h _ _ k now
  | getKv k now => exact (hashGetKv_spec h k now).1
  | delete k => exact (hashDelete_spec h k).1
  | updateExpiry k d now now' ok => exact hashUpdateExpiry_inv h k d now now' ok

theorem notexist_ne_full : dbErrKeyNotexist ≠ errFull := by decide

theorem ok_ne_full : (0 : Err) ≠ errFull := by decide

theorem hashRead_code (missing : Str) (found : Entry → Str) (k : Str) (now : ℤ) :
    (hashRead missing found s k now).2.code ≠ errFull := by
  rw [hashRead_eq]
  dsimp only
  cases (hashGetKv s k now).2 with
  | none => exact notexist_ne_full
  | some e => exact ok_ne_full

theorem renewExpiry_code (s : Db) (a : Addr) (duration now : ℤ) (ok : Bool) :
    (renewExpiry s a duration now ok).2.code ≠ errFull := by
  have hcode : ∀ h : TtlHeap, (heapInsert ok h a).1 ≠ errFull := by
    intro h
    rcases heapInsert_cases ok h a with ⟨-, heq⟩ | ⟨_, -, heq⟩ <;> rw [heq]
    · exact show dbErrNomem ≠ errFull by decide
    · exact ok_ne_full
  exact hcode _

/-- A full table is left as it is. -/
theorem Db.Inv.step_full (bound : UInt64) (h : s.Inv) {c : Call} {r : Reply}
    (hr : (s.step bound c).2 = .reply r) (hcode : r.code = errFull) :
    (s.step bound c).1.table = s.table := by
  cases c with
  | insert k v ok =>
    cases ok with
    | false => rfl
    | true =>
      rcases hashInsert_cases h k v bound with
        ⟨a, pre, post, -, heq⟩ | ⟨-, -, heq⟩ | ⟨-, -, heq⟩
      · simp only [step, heq, Answer.reply.injEq] at hr
        subst hr
        exact absurd hcode ok_ne_full
      · simp only [step, heq]
        exact alloc_table h.fresh k v
      · simp only [step, heq, Answer.reply.injEq] at hr
        subst hr
        exact absurd hcode ok_ne_full
  | get k now =>
    rcases s.step_get_cases bound k now with ⟨-, -, heq⟩ | ⟨-, heq⟩ <;> rw [heq] at hr <;> cases hr
    exact absurd hcode (hashRead_code _ _ k now)
  | getExpiry k now => cases hr; exact absurd hcode (hashRead_code _ _ k now)
  | exists_ k now => cases hr; exact absurd hcode (hashRead_code _ _ k now)
  | getKv k now => cases hr
  | delete k =>
    cases hr
    rcases hashDelete_cases s k with ⟨-, heq⟩ | ⟨a, pre, post, -, heq⟩ <;> rw [heq] at hcode
    · exact absurd hcode notexist_ne_full
    · exact absurd hcode ok_ne_full
  | updateExpiry k d now now' ok =>
    cases hr
    rw [hashUpdateExpiry_eq] at hcode
    dsimp only at hcode
    cases hk : (hashGetKv s k now).2 with
    | none => rw [hk] at hcode; exact absurd hcode notexist_ne_full
    | some e => rw [hk] at hcode; exact absurd hcode (renewExpiry_code _ e d now' ok)

end Step

end SahDB
