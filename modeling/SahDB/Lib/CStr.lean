import SahDB.Lib.Decimal
import Mathlib.Data.List.TakeWhile

/-! The part of the C string and stream library that text formats are read with: `strtok_r`,
    `strchr`, `fgets`, `fread` and `atol`, over lists of bytes.

    `tokens` is a whole `strtok_r` loop, `pieces` a whole `fgets` loop and `blocks` a whole `fread`
    loop. A delimiter splits the tokens of a string into those before and those after it
    (`tokens_append`); a line that fits the buffer is one piece (`pieces_line`), a longer one gives
    a full buffer first (`pieces_full`), so a text of lines that fit is read line by line
    (`pieces_eq_lines`). A string inside an array is named by its position (`strAt`). -/

namespace CStr

abbrev Bytes := List UInt8

/-- What the functions of `string.h` see of an array: the bytes before the first NUL. -/
def cut (s : Bytes) : Bytes := s.takeWhile (· ≠ 0)

def newline : UInt8 := 10

/-- Texts that start alike up to a separator neither start contains. -/
theorem append_cons_inj {c : UInt8} {x y s t : Bytes} (hx : c ∉ x) (hy : c ∉ y)
    (h : x ++ c :: s = y ++ c :: t) : x = y ∧ s = t := by
  induction x generalizing y with
  | nil =>
    cases y with
    | nil => exact ⟨rfl, (List.cons.inj h).2⟩
    | cons b y => exact absurd (List.mem_cons.mpr (Or.inl (List.cons.inj h).1)) hy
  | cons a x ih =>
    cases y with
    | nil => exact absurd (List.mem_cons.mpr (Or.inl (List.cons.inj h).1.symm)) hx
    | cons b y =>
      rw [List.mem_cons, not_or] at hx hy
      obtain ⟨rfl, htail⟩ := List.cons.inj h
      obtain ⟨rfl, rfl⟩ := ih hx.2 hy.2 htail
      exact ⟨rfl, rfl⟩

/-! ### `strtok_r` -/

/-- `strtok_r`: skip delimiters, then take the bytes up to the next one, which is consumed. -/
def strtokR (d : UInt8 → Bool) (s : Bytes) : Option Bytes × Bytes :=
  match s.dropWhile d with
  | [] => (none, [])
  | c :: t => (some ((c :: t).takeWhile (!d ·)), ((c :: t).dropWhile (!d ·)).tail)

theorem strtokR_length {d : UInt8 → Bool} {s t : Bytes} (h : (strtokR d s).1 = some t) :
    (strtokR d s).2.length < s.length := by
  have hle := (List.dropWhile_suffix (p := d) (l := s)).length_le
  revert h
  unfold strtokR
  cases hs : s.dropWhile d with
  | nil => simp
  | cons c u =>
    intro _
    have hc : ¬ d c := by
      simpa [hs] using List.head_dropWhile_not d (l := s) (by rw [hs]; simp)
    have hsuf := (List.dropWhile_suffix (p := (!d ·)) (l := u)).length_le
    rw [hs, List.length_cons] at hle
    simp only [List.dropWhile_cons, hc, Bool.not_false, if_true, List.length_tail]
    omega

/-- `strtok`: `strtok_r` on the string it is given, else on what the last call has left. -/
def strtok (d : UInt8 → Bool) (s : Option Bytes) : StateM Bytes (Option Bytes) :=
  fun saved => strtokR d (s.getD saved)

/-- All tokens of a string. -/
def tokens (d : UInt8 → Bool) (s : Bytes) : List Bytes :=
  match _h : (strtokR d s).1 with
  | none => []
  | some t => t :: tokens d (strtokR d s).2
termination_by s.length
decreasing_by exact strtokR_length _h

section Tokens
variable {d : UInt8 → Bool} {w s : Bytes} {x : UInt8}

theorem tokens_of_none (h : (strtokR d s).1 = none) : tokens d s = [] := by
  rw [tokens]; split <;> simp_all

theorem tokens_of_some {t : Bytes} (h : (strtokR d s).1 = some t) :
    tokens d s = t :: tokens d (strtokR d s).2 := by
  rw [tokens]; split <;> simp_all

theorem strtokR_fst (d : UInt8 → Bool) (s : Bytes) : (strtokR d s).1 = (tokens d s).head? := by
  cases h : (strtokR d s).1 with
  | none => rw [tokens_of_none h, List.head?_nil]
  | some t => rw [tokens_of_some h, List.head?_cons]

theorem tokens_strtokR_snd (d : UInt8 → Bool) (s : Bytes) :
    tokens d (strtokR d s).2 = (tokens d s).tail := by
  cases h : (strtokR d s).1 with
  | none =>
    have hrest : (strtokR d s).2 = [] := by
      revert h
      rw [strtokR]
      split <;> simp
    rw [hrest, tokens_of_none h]
    exact tokens_of_none rfl
  | some t => rw [tokens_of_some h, List.tail_cons]

theorem takeWhile_word (hw : ∀ c ∈ w, d c = false) (s : Bytes) (hx : d x) :
    (w ++ x :: s).takeWhile (!d ·) = w ∧ (w ++ x :: s).dropWhile (!d ·) = x :: s := by
  constructor
  · rw [List.takeWhile_append_of_pos (by simpa using hw)]; simp [hx]
  · rw [List.dropWhile_append_of_pos (by simpa using hw)]; simp [hx]

/-- A word that a delimiter ends is the next token. -/
theorem strtokR_word (hne : w ≠ []) (hw : ∀ c ∈ w, d c = false) (hx : d x) :
    strtokR d (w ++ x :: s) = (some w, s) := by
  obtain ⟨c, w, rfl⟩ := List.exists_cons_of_ne_nil hne
  have hdrop : (c :: w ++ x :: s).dropWhile d = c :: w ++ x :: s := by
    rw [List.cons_append, List.dropWhile_cons, hw c (by simp)]; rfl
  obtain ⟨ht, hd⟩ := takeWhile_word hw s hx
  rw [strtokR, hdrop]
  simp only [List.cons_append] at ht hd ⊢
  rw [ht, hd, List.tail_cons]

/-- A word at the end of the string is the last token. -/
theorem strtokR_last (hne : w ≠ []) (hw : ∀ c ∈ w, d c = false) :
    strtokR d w = (some w, []) := by
  obtain ⟨c, w, rfl⟩ := List.exists_cons_of_ne_nil hne
  have hdrop : (c :: w).dropWhile d = c :: w := by
    rw [List.dropWhile_cons, hw c (by simp)]; rfl
  rw [strtokR, hdrop]
  dsimp only
  rw [List.takeWhile_eq_self_iff.mpr (by simpa using hw),
    List.dropWhile_eq_nil_iff.mpr (by simpa using hw), List.tail_nil]

theorem strtokR_cons_delim (hx : d x) (s : Bytes) : strtokR d (x :: s) = strtokR d s := by
  rw [strtokR, strtokR, List.dropWhile_cons, if_pos hx]

@[simp] theorem tokens_nil : tokens d [] = [] := tokens_of_none rfl

theorem tokens_cons_delim (hx : d x) (s : Bytes) : tokens d (x :: s) = tokens d s := by
  cases h : (strtokR d s).1 with
  | none => rw [tokens_of_none h, tokens_of_none (by rw [strtokR_cons_delim hx, h])]
  | some t =>
    rw [tokens_of_some h, tokens_of_some (by rw [strtokR_cons_delim hx, h]), strtokR_cons_delim hx]

theorem tokens_word (hne : w ≠ []) (hw : ∀ c ∈ w, d c = false) (hx : d x) (s : Bytes) :
    tokens d (w ++ x :: s) = w :: tokens d s := by
  have h := strtokR_word (s := s) hne hw hx
  rw [tokens_of_some (by rw [h]), h]

theorem tokens_last (hne : w ≠ []) (hw : ∀ c ∈ w, d c = false) : tokens d w = [w] := by
  have h := strtokR_last hne hw
  rw [tokens_of_some (by rw [h]), h, tokens_nil]

/-! With one delimiter, as most formats have it. -/

theorem eq_false_of_notMem (hw : x ∉ w) : ∀ c ∈ w, decide (c = x) = false := by
  intro c hc
  simpa using fun hcx : c = x => hw (hcx ▸ hc)

theorem tokens_upto (hne : w ≠ []) (hw : x ∉ w) (s : Bytes) :
    tokens (· = x) (w ++ x :: s) = w :: tokens (· = x) s :=
  tokens_word hne (eq_false_of_notMem hw) (by simp) s

theorem tokens_whole (hne : w ≠ []) (hw : x ∉ w) : tokens (· = x) w = [w] :=
  tokens_last hne (eq_false_of_notMem hw)

/-- Every string is empty, starts with a delimiter, is one word, or a word and a delimiter. -/
theorem word_cases (d : UInt8 → Bool) (s : Bytes) :
    s = [] ∨ (∃ x t, s = x :: t ∧ d x) ∨
    ∃ w, w ≠ [] ∧ (∀ c ∈ w, d c = false) ∧ (s = w ∨ ∃ x t, s = w ++ x :: t ∧ d x) := by
  cases s with
  | nil => exact Or.inl rfl
  | cons c s =>
    by_cases hc : d c
    · exact Or.inr (Or.inl ⟨c, s, rfl, hc⟩)
    · refine Or.inr (Or.inr ⟨(c :: s).takeWhile (!d ·), by simp [hc], fun b hb => ?_, ?_⟩)
      · simpa using List.mem_takeWhile_imp hb
      · have happ := List.takeWhile_append_dropWhile (p := (!d ·)) (l := c :: s)
        cases hr : (c :: s).dropWhile (!d ·) with
        | nil => rw [hr, List.append_nil] at happ; exact Or.inl happ.symm
        | cons x t =>
          have hx := List.head_dropWhile_not (!d ·) (l := c :: s) (by rw [hr]; simp)
          simp only [hr, List.head_cons] at hx
          rw [hr] at happ
          exact Or.inr ⟨x, t, happ.symm, by simpa using hx⟩

/-- Induction on a string, one delimiter or one word with its delimiter at a time. -/
@[elab_as_elim]
theorem word_induction (d : UInt8 → Bool) {motive : Bytes → Prop} (nil : motive [])
    (delim : ∀ x s, d x → motive s → motive (x :: s))
    (last : ∀ w, w ≠ [] → (∀ c ∈ w, d c = false) → motive w)
    (word : ∀ w x s, w ≠ [] → (∀ c ∈ w, d c = false) → d x → motive s → motive (w ++ x :: s))
    (s : Bytes) : motive s := by
  induction hn : s.length using Nat.strong_induction_on generalizing s with
  | _ n ih =>
    rcases word_cases d s with rfl | ⟨x, t, rfl, hx⟩ | ⟨w, hne, hw, rfl | ⟨x, t, rfl, hx⟩⟩
    · exact nil
    · exact delim x t hx (ih t.length (by rw [← hn]; simp) t rfl)
    · exact last s hne hw
    · exact word w x t hne hw hx (ih t.length (by rw [← hn]; simp; omega) t rfl)

/-- A delimiter separates the tokens before it from the tokens after it. -/
theorem tokens_append (hx : d x) (a b : Bytes) :
    tokens d (a ++ x :: b) = tokens d a ++ tokens d b := by
  induction a using word_induction d with
  | nil => rw [List.nil_append, tokens_cons_delim hx, tokens_nil, List.nil_append]
  | delim y t hy ih => rw [List.cons_append, tokens_cons_delim hy, tokens_cons_delim hy, ih]
  | last w hne hw => rw [tokens_word hne hw hx, tokens_last hne hw, List.singleton_append]
  | word w y t hne hw hy ih =>
    rw [List.append_assoc, List.cons_append, tokens_word hne hw hy, tokens_word hne hw hy, ih,
      List.cons_append]

/-- Cutting a string next to a delimiter keeps its tokens. -/
theorem tokens_append_edge (hx : d x) {a b : Bytes}
    (h : a.getLast? = some x ∨ b.head? = some x) :
    tokens d (a ++ b) = tokens d a ++ tokens d b := by
  rcases h with h | h
  · obtain ⟨a, rfl⟩ := List.getLast?_eq_some_iff.mp h
    rw [List.append_assoc, List.singleton_append, tokens_append hx, tokens_append hx, tokens_nil,
      List.append_nil]
  · obtain ⟨b, rfl⟩ := List.head?_eq_some_iff.mp h
    rw [tokens_append hx, tokens_cons_delim hx]

/-- So does cutting it in several such places. -/
theorem tokens_flatten (hx : d x) {parts : List Bytes} (hne : [] ∉ parts)
    (h : parts.IsChain fun a b => a.getLast? = some x ∨ b.head? = some x) :
    tokens d parts.flatten = parts.flatMap (tokens d) := by
  induction parts with
  | nil => simp
  | cons a parts ih =>
    rw [List.mem_cons, not_or] at hne
    cases parts with
    | nil => simp
    | cons b parts =>
      rw [List.isChain_cons_cons] at h
      have hb : b ≠ [] := fun hb => hne.2 (by simp [hb])
      have hhead : (b :: parts).flatten.head? = b.head? := by
        rw [List.flatten_cons, List.head?_append_of_ne_nil _ hb]
      rw [List.flatten_cons, List.flatMap_cons, tokens_append_edge hx (by rw [hhead]; exact h.1),
        ih hne.2 h.2]

/-- Cutting a string inside a token gives one token more. -/
theorem length_tokens_append_inside {a b : Bytes} (ha : ∃ c ∈ a.getLast?, d c = false)
    (hb : ∃ c ∈ b.head?, d c = false) :
    (tokens d (a ++ b)).length + 1 = (tokens d a).length + (tokens d b).length := by
  -- what follows a delimiter in `a` ends in the same byte
  have hlast : ∀ {u t : Bytes} {y : UInt8}, d y → (∃ c ∈ (u ++ y :: t).getLast?, d c = false) →
      ∃ c ∈ t.getLast?, d c = false := by
    rintro u t y hy ⟨c, hc, hdc⟩
    cases t with
    | nil =>
      rw [List.getLast?_append_cons, List.getLast?_singleton, Option.mem_some_iff] at hc
      exact absurd hy (by simp [hc, hdc])
    | cons z t =>
      rw [List.getLast?_append_cons, List.getLast?_cons_cons] at hc
      exact ⟨c, hc, hdc⟩
  induction a using word_induction d with
  | nil =>
    obtain ⟨c, hc, -⟩ := ha
    cases hc
  | delim y t hy ih =>
    rw [List.cons_append, tokens_cons_delim hy, tokens_cons_delim hy]
    exact ih (hlast (u := []) hy ha)
  | last u hne hu =>
    obtain ⟨e, he, hde⟩ := hb
    rw [tokens_last hne hu]
    rcases word_cases d b with rfl | ⟨y, t, rfl, hy⟩ | ⟨v, hne', hv, rfl | ⟨y, t, rfl, hy⟩⟩
    · cases he
    · rw [List.head?_cons, Option.mem_some_iff] at he
      exact absurd hy (by simp [he, hde])
    · rw [tokens_last hne' hv, tokens_last (by simp [hne]) fun c hc =>
        (List.mem_append.mp hc).elim (hu c) (hv c)]
      rfl
    · rw [← List.append_assoc, tokens_word hne' hv hy, tokens_word (by simp [hne]) (fun c hc =>
        (List.mem_append.mp hc).elim (hu c) (hv c)) hy]
      simp only [List.length_cons, List.length_nil]
      omega
  | word u y t hne hu hy ih =>
    have hrest := ih (hlast hy ha)
    rw [List.append_assoc, List.cons_append, tokens_word hne hu hy, tokens_word hne hu hy,
      List.length_cons, List.length_cons]
    omega

/-- Cutting a string keeps the number of its tokens only next to the delimiter, and never lowers it.
    -/
theorem length_tokens_append (hd : ∀ c, d c = true ↔ c = x) {a b : Bytes} (ha : a ≠ [])
    (hb : b ≠ []) :
    (tokens d (a ++ b)).length ≤ (tokens d a).length + (tokens d b).length ∧
      ((tokens d a).length + (tokens d b).length = (tokens d (a ++ b)).length →
        a.getLast? = some x ∨ b.head? = some x) := by
  by_cases hedge : a.getLast? = some x ∨ b.head? = some x
  · rw [tokens_append_edge ((hd x).mpr rfl) hedge, List.length_append]
    exact ⟨le_rfl, fun _ => hedge⟩
  · rw [not_or] at hedge
    have hout : ∀ {o : Option UInt8}, o ≠ none → o ≠ some x → ∃ c ∈ o, d c = false := by
      intro o hnone hx
      obtain ⟨c, rfl⟩ := Option.ne_none_iff_exists'.mp hnone
      exact ⟨c, rfl, by simpa using fun hc => hx (congrArg some ((hd c).mp hc))⟩
    have hlen := length_tokens_append_inside (hout (by simpa using ha) hedge.1)
      (hout (by simpa using hb) hedge.2)
    exact ⟨by omega, fun h => by omega⟩

theorem length_tokens_flatten (hd : ∀ c, d c = true ↔ c = x) {parts : List Bytes}
    (hne : [] ∉ parts) :
    (tokens d parts.flatten).length ≤ (parts.flatMap (tokens d)).length ∧
      ((parts.flatMap (tokens d)).length = (tokens d parts.flatten).length →
        parts.IsChain fun a b => a.getLast? = some x ∨ b.head? = some x) := by
  induction parts with
  | nil => simp
  | cons a parts ih =>
    rw [List.mem_cons, not_or] at hne
    obtain ⟨hle, hchain⟩ := ih hne.2
    cases parts with
    | nil => simp
    | cons b parts =>
      have hb : b ≠ [] := fun hb => hne.2 (by simp [hb])
      have hflat : (b :: parts).flatten ≠ [] := by simp [hb]
      have hhead : (b :: parts).flatten.head? = b.head? := by
        rw [List.flatten_cons, List.head?_append_of_ne_nil _ hb]
      obtain ⟨hle', hedge⟩ := length_tokens_append hd (Ne.symm hne.1) hflat
      rw [List.flatten_cons, List.flatMap_cons, List.length_append]
      refine ⟨by omega, fun h => ?_⟩
      rw [List.isChain_cons_cons, ← hhead]
      exact ⟨hedge (by omega), hchain (by omega)⟩

/-- A token is a non-empty word of bytes of the string. -/
theorem mem_tokens {t : Bytes} (ht : t ∈ tokens d s) :
    t ≠ [] ∧ ∀ c ∈ t, d c = false ∧ c ∈ s := by
  induction s using word_induction d with
  | nil => simp at ht
  | delim y r hy ih =>
    rw [tokens_cons_delim hy] at ht
    obtain ⟨h1, h2⟩ := ih ht
    exact ⟨h1, fun c hc => ⟨(h2 c hc).1, List.mem_cons_of_mem _ (h2 c hc).2⟩⟩
  | last w hne hw =>
    rw [tokens_last hne hw, List.mem_singleton] at ht
    subst ht
    exact ⟨hne, fun c hc => ⟨hw c hc, hc⟩⟩
  | word w y r hne hw hy ih =>
    rw [tokens_word hne hw hy] at ht
    rcases List.mem_cons.mp ht with rfl | ht
    · exact ⟨hne, fun c hc => ⟨hw c hc, List.mem_append_left _ hc⟩⟩
    · obtain ⟨h1, h2⟩ := ih ht
      exact ⟨h1, fun c hc => ⟨(h2 c hc).1, by simp [(h2 c hc).2]⟩⟩

/-- Words with one delimiter between them. -/
def spaced (x : UInt8) : List Bytes → Bytes
  | [] => []
  | [w] => w
  | w :: v :: ws => w ++ x :: spaced x (v :: ws)

theorem tokens_spaced (hx : d x) {ws : List Bytes} (h : ∀ w ∈ ws, w ≠ [] ∧ ∀ c ∈ w, d c = false) :
    tokens d (spaced x ws) = ws := by
  induction ws with
  | nil => exact tokens_nil
  | cons w ws ih =>
    obtain ⟨hne, hw⟩ := h w (by simp)
    cases ws with
    | nil => exact tokens_last hne hw
    | cons v ws => rw [spaced, tokens_word hne hw hx, ih fun u hu => h u (by simp [hu])]

theorem mem_spaced {ws : List Bytes} {c : UInt8} (h : c ∈ spaced x ws) :
    c = x ∨ ∃ w ∈ ws, c ∈ w := by
  induction ws with
  | nil => cases h
  | cons w ws ih =>
    cases ws with
    | nil => exact Or.inr ⟨w, by simp, h⟩
    | cons v ws =>
      rw [spaced, List.mem_append, List.mem_cons] at h
      rcases h with h | h | h
      · exact Or.inr ⟨w, by simp, h⟩
      · exact Or.inl h
      · refine (ih h).imp_right ?_
        rintro ⟨u, hu, hc⟩
        exact ⟨u, List.mem_cons_of_mem _ hu, hc⟩

/-- Only a string of delimiters has no token. -/
theorem tokens_eq_nil_iff : tokens d s = [] ↔ ∀ c ∈ s, d c = true := by
  rw [← List.dropWhile_eq_nil_iff]
  cases h : s.dropWhile d with
  | nil => exact iff_of_true (tokens_of_none (by rw [strtokR, h])) rfl
  | cons c t =>
    rw [tokens_of_some (by rw [strtokR, h])]
    exact iff_of_false (List.cons_ne_nil _ _) (List.cons_ne_nil c t)

/-- The tokens do not overlap. -/
theorem length_flatten_tokens_le (d : UInt8 → Bool) (s : Bytes) :
    (tokens d s).flatten.length ≤ s.length := by
  induction s using word_induction d with
  | nil => simp
  | delim y r hy ih =>
    rw [tokens_cons_delim hy, List.length_cons]
    exact Nat.le_succ_of_le ih
  | last w hne hw => simp [tokens_last hne hw]
  | word w y r hne hw hy ih =>
    rw [tokens_word hne hw hy, List.flatten_cons, List.length_append, List.length_append,
      List.length_cons]
    omega

end Tokens

/-! ### `fgets` -/

/-- `fgets` into a buffer of `n + 1` bytes: at most `n` bytes, none after a newline. -/
def fgets : ℕ → Bytes → Bytes × Bytes
  | 0, s => ([], s)
  | _ + 1, [] => ([], [])
  | n + 1, c :: s =>
    if c = newline then ([c], s) else ((c :: (fgets n s).1), (fgets n s).2)

theorem fgets_append (n : ℕ) (s : Bytes) : (fgets n s).1 ++ (fgets n s).2 = s := by
  induction n generalizing s with
  | zero => rfl
  | succ n ih =>
    cases s with
    | nil => rfl
    | cons c s =>
      rw [fgets]
      split
      · rfl
      · rw [List.cons_append, ih]

/-- What successive calls of `fgets` return until the end of the stream. -/
def pieces (n : ℕ) (s : Bytes) : List Bytes :=
  if _h : (fgets n s).1 = [] then [] else (fgets n s).1 :: pieces n (fgets n s).2
termination_by s.length
decreasing_by
  have happ := congrArg List.length (fgets_append n s)
  have hpos := List.length_pos_of_ne_nil _h
  rw [List.length_append] at happ
  omega

section Pieces
variable {n : ℕ} {l s : Bytes}

theorem fgets_line (hl : newline ∉ l) (hn : l.length < n) (s : Bytes) :
    fgets n (l ++ newline :: s) = (l ++ [newline], s) := by
  induction l generalizing n with
  | nil =>
    obtain ⟨n, rfl⟩ := Nat.exists_eq_succ_of_ne_zero (Nat.ne_of_gt hn)
    rw [List.nil_append, fgets, if_pos rfl]; rfl
  | cons c l ih =>
    obtain ⟨n, rfl⟩ := Nat.exists_eq_succ_of_ne_zero (show n ≠ 0 by omega)
    rw [List.mem_cons, not_or] at hl
    rw [List.cons_append, fgets, if_neg (Ne.symm hl.1), ih hl.2 (by simpa using hn)]
    rfl

theorem fgets_full (hl : newline ∉ l) (s : Bytes) : fgets l.length (l ++ s) = (l, s) := by
  induction l with
  | nil => rfl
  | cons c l ih =>
    rw [List.mem_cons, not_or] at hl
    rw [List.length_cons, List.cons_append, fgets, if_neg (Ne.symm hl.1), ih hl.2]

theorem pieces_nil (n : ℕ) : pieces n [] = [] := by
  rw [pieces, dif_pos]
  cases n <;> rfl

/-- A line that fits is one piece, its newline included. -/
theorem pieces_line (hl : newline ∉ l) (hn : l.length < n) (s : Bytes) :
    pieces n (l ++ newline :: s) = (l ++ [newline]) :: pieces n s := by
  rw [pieces, fgets_line hl hn s, dif_neg (by simp)]

/-- A line that does not fit fills the buffer first. -/
theorem pieces_full (hl : newline ∉ l) (hpos : 0 < l.length) (s : Bytes) :
    pieces l.length (l ++ s) = l :: pieces l.length s := by
  rw [pieces, fgets_full hl s, dif_neg (List.ne_nil_of_length_pos hpos)]

theorem pieces_of_length_le (hl : newline ∉ l) (hne : l ≠ []) (hn : l.length ≤ n) :
    pieces n l = [l] := by
  have hfgets : ∀ {l : Bytes} {n : ℕ}, newline ∉ l → l.length ≤ n → fgets n l = (l, []) := by
    intro l
    induction l with
    | nil => intro n _ _; cases n <;> rfl
    | cons c l ih =>
      intro n hl hn
      obtain ⟨n, rfl⟩ := Nat.exists_eq_succ_of_ne_zero (show n ≠ 0 by simp at hn; omega)
      rw [List.mem_cons, not_or] at hl
      rw [fgets, if_neg (Ne.symm hl.1), ih hl.2 (by simpa using hn)]
  rw [pieces, hfgets hl hn, dif_neg hne, pieces_nil]

theorem length_fgets_le (n : ℕ) (s : Bytes) : (fgets n s).1.length ≤ n := by
  induction n generalizing s with
  | zero => exact le_rfl
  | succ n ih =>
    cases s with
    | nil => exact Nat.zero_le _
    | cons c s =>
      rw [fgets]
      split
      · exact Nat.succ_le_succ (Nat.zero_le n)
      · exact Nat.succ_le_succ (ih s)

theorem length_le_of_mem_pieces {p : Bytes} (h : p ∈ pieces n s) : p.length ≤ n := by
  induction s using pieces.induct n with
  | case1 s hnil =>
    rw [pieces, dif_pos hnil] at h
    cases h
  | case2 s hne ih =>
    rw [pieces, dif_neg hne] at h
    rcases List.mem_cons.mp h with rfl | h
    · exact length_fgets_le n s
    · exact ih h

/-- Nothing is lost between the pieces. -/
theorem pieces_flatten (hn : 0 < n) (s : Bytes) : (pieces n s).flatten = s := by
  induction s using pieces.induct n with
  | case1 s hnil =>
    rw [pieces, dif_pos hnil]
    cases s with
    | nil => rfl
    | cons c s =>
      obtain ⟨n, rfl⟩ := Nat.exists_eq_succ_of_ne_zero (Nat.ne_of_gt hn)
      rw [fgets] at hnil
      split_ifs at hnil
  | case2 s hnil ih => rw [pieces, dif_neg hnil, List.flatten_cons, ih, fgets_append]

theorem nil_notMem_pieces (n : ℕ) (s : Bytes) : [] ∉ pieces n s := by
  induction s using pieces.induct n with
  | case1 s hnil =>
    rw [pieces, dif_pos hnil]
    exact List.not_mem_nil
  | case2 s hnil ih =>
    rw [pieces, dif_neg hnil, List.mem_cons, not_or]
    exact ⟨Ne.symm hnil, ih⟩

end Pieces

/-! ### Lines -/

/-- The lines of a text, each with its newline; the last may have none. -/
def lines : Bytes → List Bytes
  | [] => []
  | c :: s =>
    if c = newline then [c] :: lines s
    else
      match lines s with
      | [] => [[c]]
      | l :: ls => (c :: l) :: ls

section Lines
variable {l s : Bytes}

theorem lines_append (hl : newline ∉ l) (s : Bytes) :
    lines (l ++ newline :: s) = (l ++ [newline]) :: lines s := by
  induction l with
  | nil => rw [List.nil_append, lines, if_pos rfl]; rfl
  | cons c l ih =>
    rw [List.mem_cons, not_or] at hl
    rw [List.cons_append, lines, if_neg (Ne.symm hl.1), ih hl.2]
    rfl

theorem lines_of_notMem (hl : newline ∉ l) (hne : l ≠ []) : lines l = [l] := by
  induction l with
  | nil => exact absurd rfl hne
  | cons c l ih =>
    rw [List.mem_cons, not_or] at hl
    rw [lines, if_neg (Ne.symm hl.1)]
    rcases eq_or_ne l [] with rfl | hl'
    · rfl
    · rw [ih hl.2 hl']

/-- If every line fits the buffer, `fgets` reads the lines. -/
theorem pieces_eq_lines {n : ℕ} (h : ∀ l ∈ lines s, l.length ≤ n) : pieces n s = lines s := by
  induction hlen : s.length using Nat.strong_induction_on generalizing s with
  | _ m ih =>
    by_cases hs : newline ∈ s
    · obtain ⟨l, t, rfl, hl⟩ := List.eq_append_cons_of_mem hs
      rw [lines_append hl, List.forall_mem_cons, List.length_append] at h
      rw [lines_append hl, pieces_line hl (by simpa using h.1)]
      exact congrArg _ (ih t.length (by rw [← hlen]; simp; omega) h.2 rfl)
    · rcases eq_or_ne s [] with rfl | hne
      · exact pieces_nil n
      · rw [lines_of_notMem hs hne] at h ⊢
        exact pieces_of_length_le hs hne (h s (by simp))

end Lines

/-- Drop one newline at the end. -/
def chomp (s : Bytes) : Bytes := if s.getLast? = some newline then s.dropLast else s

theorem length_chomp_le (s : Bytes) : (chomp s).length ≤ s.length := by
  rw [chomp]
  split_ifs
  · exact (List.dropLast_sublist s).length_le
  · exact le_rfl

theorem length_cut_le (s : Bytes) : (cut s).length ≤ s.length :=
  (List.takeWhile_prefix _).length_le

theorem chomp_line (l : Bytes) : chomp (l ++ [newline]) = l := by simp [chomp]

theorem chomp_of_notMem {l : Bytes} (hl : newline ∉ l) : chomp l = l := by
  rw [chomp, if_neg]
  exact fun h => hl (List.mem_of_getLast? h)

theorem cut_of_notMem {s : Bytes} (h : (0 : UInt8) ∉ s) : cut s = s := by
  rw [cut, List.takeWhile_eq_self_iff]
  intro c hc
  simpa using fun h0 : c = 0 => h (h0 ▸ hc)

/-! ### Strings inside an array -/

/-- The string that starts at a position of the array. -/
def strAt (a : Bytes) (p : ℕ) : Bytes := cut (a.drop p)

/-- `strchr` of a byte other than NUL. -/
def strchr (a : Bytes) (p : ℕ) (c : UInt8) : Option ℕ :=
  if c ∈ strAt a p then some (p + ((strAt a p).takeWhile (· ≠ c)).length) else none

/-- The parts of a string before and after the first `c`. -/
def split (c : UInt8) (s : Bytes) : Option (Bytes × Bytes) :=
  if c ∈ s then some (s.takeWhile (· ≠ c), (s.dropWhile (· ≠ c)).tail) else none

section Array
variable {a b m s t v : Bytes} {c : UInt8}

theorem takeWhile_ne_append (ha : c ∉ a) (b : Bytes) :
    (a ++ c :: b).takeWhile (· ≠ c) = a ∧ (a ++ c :: b).dropWhile (· ≠ c) = c :: b := by
  have hne : ∀ x ∈ a, decide (x ≠ c) = true := fun x hx => by
    simpa using fun hxc : x = c => ha (hxc ▸ hx)
  rw [List.takeWhile_append_of_pos hne, List.dropWhile_append_of_pos hne]
  simp

theorem split_append (ha : c ∉ a) (b : Bytes) : split c (a ++ c :: b) = some (a, b) := by
  obtain ⟨htake, hdrop⟩ := takeWhile_ne_append ha b
  rw [split, if_pos (by simp), htake, hdrop, List.tail_cons]

theorem split_eq_none_iff : split c s = none ↔ c ∉ s := by
  rw [split, ite_eq_right_iff]
  exact ⟨fun h hc => absurd (h hc) (Option.some_ne_none _), fun h hc => absurd hc h⟩

theorem split_eq_some_iff : split c s = some (a, b) ↔ s = a ++ c :: b ∧ c ∉ a := by
  constructor
  · intro h
    have hc : c ∈ s := by
      by_contra hc
      rw [split_eq_none_iff.mpr hc] at h
      cases h
    obtain ⟨a', b', rfl, ha'⟩ := List.eq_append_cons_of_mem hc
    rw [split_append ha'] at h
    cases h
    exact ⟨rfl, ha'⟩
  · rintro ⟨rfl, ha⟩
    exact split_append ha b

/-- Bytes behind a NUL do not count. -/
theorem cut_append (s t : Bytes) : cut (s ++ 0 :: t) = cut s := by
  induction s with
  | nil => simp [cut]
  | cons c s ih =>
    simp only [cut] at ih
    rw [List.cons_append, cut, List.takeWhile_cons, cut, List.takeWhile_cons, ih]

theorem strAt_append (hm : (0 : UInt8) ∉ m) (pre t : Bytes) :
    strAt (pre ++ (m ++ 0 :: t)) pre.length = m := by
  rw [strAt, List.drop_left, cut_append, cut_of_notMem hm]

/-- The position of the first `c` is where the string splits. -/
theorem strchr_eq_split (a : Bytes) (p : ℕ) (c : UInt8) :
    strchr a p c = (split c (strAt a p)).map fun x => p + x.1.length := by
  unfold strchr split
  split_ifs <;> rfl

/-- A string is read where its bytes and the terminator are. -/
theorem cut_eq_iff (hv : (0 : UInt8) ∉ v) :
    cut s = v ↔ ∀ j ≤ v.length, s.getD j 0 = v.getD j 0 := by
  induction v generalizing s with
  | nil =>
    cases s with
    | nil => simp [cut]
    | cons c s => simp [cut]
  | cons b v ih =>
    rw [List.mem_cons, not_or] at hv
    cases s with
    | nil =>
      refine iff_of_false (by simp [cut]) fun h => hv.1 ?_
      simpa using h 0 (Nat.zero_le _)
    | cons c s =>
      have hforall : (∀ j ≤ (b :: v).length, (c :: s).getD j 0 = (b :: v).getD j 0) ↔
          c = b ∧ ∀ j ≤ v.length, s.getD j 0 = v.getD j 0 := by
        constructor
        · intro h
          exact ⟨h 0 (Nat.zero_le _), fun j hj => h (j + 1) (Nat.succ_le_succ hj)⟩
        · rintro ⟨rfl, h⟩ j hj
          cases j with
          | zero => rfl
          | succ j => exact h j (Nat.le_of_succ_le_succ hj)
      rw [hforall, ← ih hv.2]
      by_cases hc : c = 0
      · refine iff_of_false (by simp [cut, hc]) fun h => hv.1 (hc.symm.trans h.1)
      · have hcut : cut (c :: s) = c :: cut s := by simp [cut, hc]
        rw [hcut, List.cons.injEq]

theorem strAt_eq_iff (hv : (0 : UInt8) ∉ v) {p : ℕ} :
    strAt a p = v ↔ ∀ j ≤ v.length, a.getD (p + j) 0 = v.getD j 0 := by
  rw [strAt, cut_eq_iff hv]
  simp only [List.getD_eq_getElem?_getD, List.getElem?_drop]

end Array
/-! ### `fread` -/

/-- What successive calls of `fread` into a buffer of `n` bytes return until the end of the stream.
    -/
def blocks (n : ℕ) (s : Bytes) : List Bytes :=
  if _h : n = 0 ∨ s = [] then [] else s.take n :: blocks n (s.drop n)
termination_by s.length
decreasing_by
  rw [not_or] at _h
  have hpos := List.length_pos_of_ne_nil _h.2
  rw [List.length_drop]
  omega

section Blocks
variable {n : ℕ} {s : Bytes}

@[simp] theorem blocks_nil (n : ℕ) : blocks n [] = [] := by rw [blocks, dif_pos (Or.inr rfl)]

theorem blocks_of_ne (hn : 0 < n) (hs : s ≠ []) : blocks n s = s.take n :: blocks n (s.drop n) := by
  rw [blocks, dif_neg (not_or.mpr ⟨Nat.ne_of_gt hn, hs⟩)]

/-- A stream that fits the buffer is one block. -/
theorem blocks_of_length_le (hs : s ≠ []) (hn : s.length ≤ n) : blocks n s = [s] := by
  have hpos : 0 < n := (List.length_pos_of_ne_nil hs).trans_le hn
  rw [blocks_of_ne hpos hs, List.take_of_length_le hn, List.drop_of_length_le hn, blocks_nil]

/-- Blocks are not empty and hold bytes of the stream. -/
theorem mem_blocks {b : Bytes} (h : b ∈ blocks n s) : b ≠ [] ∧ ∀ c ∈ b, c ∈ s := by
  induction s using blocks.induct n with
  | case1 s hend =>
    rw [blocks, dif_pos hend] at h
    cases h
  | case2 s hend ih =>
    rw [blocks, dif_neg hend] at h
    rw [not_or] at hend
    rcases List.mem_cons.mp h with rfl | h
    · exact ⟨by simp [hend.1, hend.2], fun c hc => List.mem_of_mem_take hc⟩
    · obtain ⟨hne, hmem⟩ := ih h
      exact ⟨hne, fun c hc => List.mem_of_mem_drop (hmem c hc)⟩

/-- Cutting every block to `k` bytes leaves no more than the stream. -/
theorem length_flatten_take_blocks_le (k : ℕ) (s : Bytes) :
    (((blocks n s).map (List.take k)).flatten).length ≤ s.length := by
  induction s using blocks.induct n with
  | case1 s hend =>
    rw [blocks, dif_pos hend]
    simp
  | case2 s hend ih =>
    rw [List.length_drop] at ih
    rw [blocks, dif_neg hend, List.map_cons, List.flatten_cons, List.length_append,
      List.length_take, List.length_take]
    have hpos := List.length_pos_of_ne_nil (not_or.mp hend).2
    omega

/-- If a block loses its last byte where it fills the buffer, the stream is whole only when it is
    shorter than the buffer. -/
theorem flatten_take_blocks_eq_iff (hn : 0 < n) :
    ((blocks n s).map (List.take (n - 1))).flatten = s ↔ s.length < n := by
  constructor
  · intro h
    by_contra hle
    rw [not_lt] at hle
    have hs : s ≠ [] := List.ne_nil_of_length_pos (hn.trans_le hle)
    have hlen := congrArg List.length h
    have hrest := length_flatten_take_blocks_le (n := n) (n - 1) (s.drop n)
    rw [List.length_drop] at hrest
    rw [blocks_of_ne hn hs, List.map_cons, List.flatten_cons, List.length_append, List.length_take,
      List.length_take] at hlen
    omega
  · intro hlt
    rcases eq_or_ne s [] with rfl | hs
    · simp
    · rw [blocks_of_length_le hs hlt.le, List.map_singleton, List.flatten_singleton,
        List.take_of_length_le (by omega)]

end Blocks

/-! ### `atol` -/

/-- `isspace` -/
def isSpace (c : UInt8) : Bool := c = 32 || (9 ≤ c && c ≤ 13)

/-- The value of the digits at the start of a string. -/
def leadingNat (s : Bytes) : ℕ := Decimal.value (s.takeWhile fun c => decide (Decimal.IsDigit c))

/-- `atol`: white space, a sign, digits; a value out of range saturates. -/
def atol (s : Bytes) : ℤ :=
  match s.dropWhile isSpace with
  | 45 :: t => max (-2 ^ 63) (-(leadingNat t : ℤ))
  | 43 :: t => min (2 ^ 63 - 1) (leadingNat t : ℤ)
  | t => min (2 ^ 63 - 1) (leadingNat t : ℤ)

/-- The value of a string of digits, as far as it is in range. -/
theorem atol_digits {s : Bytes} (h : ∀ c ∈ s, Decimal.IsDigit c) :
    atol s = min (2 ^ 63 - 1) (Decimal.value s : ℤ) := by
  have hval : leadingNat s = Decimal.value s := by
    rw [leadingNat, List.takeWhile_eq_self_iff.mpr (by simpa using h)]
  cases s with
  | nil => rfl
  | cons c t =>
    have hc : 48 ≤ c.toNat ∧ c.toNat ≤ 57 := h c (by simp)
    have hne : c ≠ 45 ∧ c ≠ 43 := by
      constructor <;> rintro rfl <;> exact absurd hc.1 (by decide)
    have hspace : isSpace c = false := by
      simp only [isSpace, Bool.or_eq_false_iff, decide_eq_false_iff_not, Bool.and_eq_false_iff,
        UInt8.le_iff_toNat_le, ← UInt8.toNat_inj]
      have h32 : (32 : UInt8).toNat = 32 := rfl
      have h13 : (13 : UInt8).toNat = 13 := rfl
      exact ⟨by omega, Or.inr (by omega)⟩
    rw [atol, List.dropWhile_cons, hspace]
    simp only [Bool.false_eq_true, if_false]
    split
    · next heq => exact absurd (List.cons.inj heq).1 hne.1
    · next heq => exact absurd (List.cons.inj heq).1 hne.2
    · rw [hval]

/-- Reading a printed number gives it back, as far as it is in range. -/
theorem atol_print (n : ℕ) : atol (Decimal.print n) = min (2 ^ 63 - 1) (n : ℤ) := by
  rw [atol_digits fun c hc => Decimal.isDigit_of_mem_print hc, Decimal.value_print]

end CStr
