import SahDB.Restart

/-! The array `get_kv_from_bucket` prints an expiry into.

    It has 20 bytes. An expiry is printed as an unsigned 64-bit number, unless it is `LONG_MAX`, so
    the negative ones from -1 down to `10 ^ 19 - 2 ^ 64` take 20 digits and have no room for the
    terminator. SET gives -1 to every new key. What else can write such an expiry is an EXPIRE with
    a negative sum, and the loader, which turns `LONG_MAX` back into -1. -/

namespace SahDB
open Db Table

/-- The size of `expiry` in `get_kv_from_bucket`. -/
def expiryLen : ℕ := 20

/-- The text of the expiry fits the array together with its NUL. -/
def TextFits (t : ℤ) : Prop := (expiryText t).length + 1 ≤ expiryLen

/-- The expiries whose unsigned numeral has 20 digits. -/
def LongNumeral (t : ℤ) : Prop := 10 ^ 19 - 2 ^ 64 ≤ t ∧ t ≤ -1

instance (t : ℤ) : Decidable (LongNumeral t) := inferInstanceAs (Decidable (_ ∧ _))

theorem textFits_iff {t : ℤ} (h0 : longMin ≤ t) (h1 : t ≤ longMax) :
    TextFits t ↔ ¬ LongNumeral t := by
  rw [TextFits, expiryLen, Nat.succ_le_succ_iff]
  simp only [longMin, longMax] at h0 h1
  unfold expiryText LongNumeral
  split_ifs with hmax
  · rw [showSizeT, Decimal.length_print_le_iff (by decide)]
    omega
  · have ht : t = longMax := not_not.mp hmax
    simp only [longMax] at ht
    exact iff_of_true (by decide) (by omega)

namespace Db

/-- The text of every expiry in the store fits. -/
def TextsFit (s : Db) : Prop := ∀ i, ∀ e ∈ s.chain i, TextFits e.expiry

/-- The call makes a new entry, or gives a live key an expiry whose text is too long. -/
def Overlong (s : Db) : Call → Prop
  | .insert k _ ok => ok = true ∧ s.table.find k = none ∧ s.count + 1 < maxAllowed.toNat
  | .updateExpiry k d now now' _ =>
    ∃ e, s.table.find k = some e ∧ ¬ e.Expired now ∧ LongNumeral (timeT (now' + d))
  | _ => False

end Db

/-! ### One call -/

section Step
variable {s : Db}

/-- Any other call leaves texts that fit. -/
theorem Db.TextsFit.step (hi : s.Inv) (h : s.TextsFit) {c : Call} (hc : ¬ s.Overlong c) :
    (s.step maxAllowed c).1.TextsFit := by
  have hrec : AllRecords (fun e => TextFits e.expiry) s.table := h
  change AllRecords (fun e => TextFits e.expiry) (s.step maxAllowed c).1.table
  have hy := hi.yields maxAllowed c
  generalize (s.step maxAllowed c).1 = s' at hy ⊢
  cases hy with
  | same => exact hrec
  | setValue hat =>
    rw [setValue_alloc_table hi hat]
    exact hrec.modify fun _ _ he => he
  | full =>
    rw [alloc_table hi.fresh]
    exact hrec
  | link missing room => exact absurd ⟨rfl, missing, room⟩ hc
  | lazily _ hat =>
    rw [lazyUnlink_table hi hat]
    exact hrec.remove _
  | delete hat =>
    rw [unlink_table hi hat]
    exact hrec.remove _
  | @renew k d now now' ok a pre post hat live =>
    rw [(renewExpiry_table hi hat d now' ok).2]
    refine hrec.modify fun _ _ _ => ?_
    obtain ⟨h0, h1⟩ := timeT_range (now' + d)
    exact (textFits_iff h0 h1).mpr fun hlong => hc ⟨_, hat.find, live, hlong⟩

/-- Such a call leaves one that does not. -/
theorem Db.Overlong.step (hi : s.Inv) {c : Call} (hc : s.Overlong c) :
    ¬ (s.step maxAllowed c).1.TextsFit := by
  intro hfit
  have hrec : AllRecords (fun e => TextFits e.expiry) (s.step maxAllowed c).1.table := hfit
  cases c with
  | insert k v ok =>
    obtain ⟨rfl, missing, room⟩ := hc
    have hfind : (s.step maxAllowed (.insert k v true)).1.table.find k = some ⟨k, v, -1⟩ := by
      change (hashInsert s k v true maxAllowed).1.table.find k = _
      rw [(hashInsert_spec hi k v maxAllowed).2.1, Table.insert_new v missing room]
      exact Table.find_append_self (e := ⟨k, v, -1⟩) missing
    have hnew : TextFits (-1) := hrec.find hfind
    rw [textFits_iff (by decide) (by decide)] at hnew
    exact hnew (by decide)
  | updateExpiry k d now now' ok =>
    obtain ⟨e, hfind, hlive, hlong⟩ := hc
    obtain ⟨a, pre, post, hat, rfl⟩ := exists_at hfind
    change AllRecords _ (hashUpdateExpiry s k d now now' ok).1.table at hrec
    rw [hashUpdateExpiry_live hat hlive, (renewExpiry_table hi hat d now' ok).2] at hrec
    have hnew : TextFits (timeT (now' + d)) := by
      refine hrec.find (e := (s.kv a).setExpiry (timeT (now' + d))) (k := k) ?_
      rw [Table.find_modify_self _ k (f := Kv.setExpiry _) fun _ => rfl, hfind]
      rfl
    obtain ⟨h0, h1⟩ := timeT_range (now' + d)
    exact (textFits_iff h0 h1).mp hnew hlong
  | _ => exact hc

end Step

/-! ### Whole runs -/

theorem Started.textsFit_iff {s : Db} (h : Started s) :
    s.TextsFit ↔ ∀ i, ∀ e ∈ s.chain i, ¬ LongNumeral e.expiry := by
  have hsound := h.records
  exact forall_congr' fun i => forall₂_congr fun e he =>
    textFits_iff (hsound i e he).low (hsound i e he).high

/-- A start from a file leaves a text that is too long exactly where the record it was written of
    had the expiry `LONG_MAX`. -/
theorem Storable.textsFit_iff {t : Table} (h : Storable t) {env : ℕ → LoadEnv} {l : Loader}
    (ht : l.db.table = htInit.table.appendAll (reloads env 0 (dataset t))) :
    (∀ i, ∀ e ∈ l.db.chain i, ¬ LongNumeral e.expiry) ↔
      ∀ i, ∀ e ∈ t.chains i, e.expiry ≠ longMax := by
  constructor
  · intro hall i e he hmax
    obtain ⟨m, hm⟩ := h.rebuild_find ht he
    rw [Kv.reload_max hmax] at hm
    exact hall _ _ (Table.mem_of_find hm) (show LongNumeral (-1) by decide)
  · intro hall i e' he' hlong
    obtain ⟨e, he, m, hm⟩ := h.reload_of_mem ht he'
    rw [Kv.reload, if_neg (hall i e he)] at hm
    dsimp only at hm
    split_ifs at hm
    cases hm
    have hneg : min longMax (e.expiry % 2 ^ 64) ≤ -1 := hlong.2
    simp only [longMax] at hneg
    omega

/-- CORRECT: along a run every expiry text fits, in every state, exactly when the start has no
    expiry from -1 down to `10 ^ 19 - 2 ^ 64`, no SET makes a new entry and no EXPIRE gives a live
    key such an expiry; and a start from the file of a store with plain words whose lines fit has
    none exactly when no record it was written of had the expiry `LONG_MAX`. -/
theorem expiry_text_fits_iff {s₀ : Db} (h : Started s₀) (calls : List Call) :
    (Mealy.Always (Db.step maxAllowed) TextsFit s₀ calls ↔
      (∀ i, ∀ e ∈ s₀.chain i, ¬ LongNumeral e.expiry) ∧
        Mealy.Never (Db.step maxAllowed) Overlong s₀ calls) ∧
    ∀ (n : Node) (disk : Option Str) (file : Str) (env : ℕ → LoadEnv) (code : Err) (l : Loader),
      Reached n → PlainWords n.db → LinesFit n.db →
      fetchDatasetFromMemory true (fun _ => true) n.db.table disk = .ok (0, some file) →
      (∀ r, (env r).mallocOk = true) →
      rebuildFromSavefile env (some file) (Loader.start htInit) = .ok (code, l) →
      ((∀ i, ∀ e ∈ l.db.chain i, ¬ LongNumeral e.expiry) ↔
        ∀ i, ∀ e ∈ n.db.chain i, e.expiry ≠ longMax) := by
  refine ⟨?_, fun n disk file env code l hn hplain hl hsave hmem hload => ?_⟩
  · have hrun : s₀.TextsFit → (Mealy.Always (Db.step maxAllowed) TextsFit s₀ calls ↔
        Mealy.Never (Db.step maxAllowed) Overlong s₀ calls) := fun h0 =>
      Mealy.always_iff_never (I := fun s : Db => s.Inv ∧ s.TextsFit)
        (fun _ hs => hs.2)
        (fun _ c hs hc => ⟨hs.1.step_inv maxAllowed c, hs.2.step hs.1 hc⟩)
        (fun _ _ hs hc => Overlong.step hs.1 hc) ⟨h.inv_empty.1, h0⟩ calls
    rw [← h.textsFit_iff]
    exact ⟨fun ha => ⟨ha [] List.nil_prefix, (hrun (ha [] List.nil_prefix)).mp ha⟩,
      fun hc => (hrun hc.1).mpr hc.2⟩
  · have hst := hn.storable hplain hl
    exact hst.textsFit_iff (hst.of_rebuild hsave hmem hload)

/-- SET k v prints the 20 digits of `2 ^ 64 - 1`. -/
theorem set_text_overlong :
    ¬ ∀ s₀, Started s₀ → ∀ (calls : List Call) (i : Fin mod), ∀ e ∈ (s₀.after calls).chain i,
      (expiryText e.expiry).length + 1 ≤ 20 := by
  intro h
  have hfit := h htInit .empty [.insert (str "k") (str "v") true]
  have hset : htInit.Overlong (.insert (str "k") (str "v") true) := ⟨rfl, rfl, by decide⟩
  exact hset.step htInit_inv hfit

/-- SET k v and EXPIRE k 5 at time 100, saved and restarted from at 101; then EXPIRE k 7. -/
theorem expiry_text_fits_iff_short : ∃ l,
    rebuildFromSavefile (fun _ => loadAt 101) (some (unlines (datasetLines shortOnly.table)))
        (Loader.start htInit) = .ok (dbErrOk, l) ∧
      Mealy.Always (Db.step maxAllowed) TextsFit l.db
        [.updateExpiry (str "k") 7 101 101 true] := by
  obtain ⟨hplain, hlines, hbuffer, -⟩ := shortOnly_fits
  obtain ⟨l, hload, -⟩ := (shortOnly_reached.storable hplain hlines).rebuild
    (fun _ => loadAt 101) fun _ => rfl
  have hfit := expiry_text_fits_iff (.rebuilt hload) [.updateExpiry (str "k") 7 101 101 true]
  refine ⟨l, hload, hfit.1.mpr ⟨?_, ?_⟩⟩
  · exact (hfit.2 _ none _ _ _ l shortOnly_reached hplain hlines (fetch_of_fits hbuffer none)
      (fun _ => rfl) hload).mpr (by decide +kernel)
  · rw [Mealy.never_cons]
    refine ⟨?_, fun pre c hpre => by simp at hpre⟩
    rintro ⟨e, -, -, -, hneg⟩
    exact absurd hneg (by decide)

end SahDB
