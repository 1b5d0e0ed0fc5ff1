import Mathlib.Data.List.TakeWhile
import Mathlib.Tactic

/-! Lines sent over a stream, and a reader that takes every chunk it reads for one message.

    The sender ends each line by `nl`. The reader keeps the part of a chunk before the first `nl`,
    drops what follows and skips empty texts. Chunks are aligned with the lines if each line comes
    in one chunk with its end, or in one chunk and its end in the next. The messages of aligned
    chunks are the lines (`Aligned.messages_eq`), and no other chunks of the stream have messages
    that begin with the lines (`aligned_of_prefix`): what is dropped is missed by a count of the
    bytes that are not `nl`. -/

namespace Framing
variable {α : Type*} [DecidableEq α]

/-- What the sender sends. -/
def stream (nl : α) (lines : List (List α)) : List α := lines.flatMap fun l => l ++ [nl]

/-- What the reader keeps of a chunk. -/
def text (nl : α) (chunk : List α) : List α := chunk.takeWhile (· ≠ nl)

/-- The messages the reader makes of the chunks. -/
def messages (nl : α) (chunks : List (List α)) : List (List α) :=
  (chunks.map (text nl)).filter (· ≠ [])

/-- Every line has a chunk of its own, with its end or with its end in the next chunk. -/
inductive Aligned (nl : α) : List (List α) → List (List α) → Prop
  | nil : Aligned nl [] []
  | whole {l : List α} {lines chunks : List (List α)} : Aligned nl lines chunks →
    Aligned nl (l :: lines) ((l ++ [nl]) :: chunks)
  | split {l : List α} {lines chunks : List (List α)} : Aligned nl lines chunks →
    Aligned nl (l :: lines) (l :: [nl] :: chunks)

/-- The number of bytes that are not `nl`. -/
def weight (nl : α) (s : List α) : ℕ := s.countP (· ≠ nl)

variable {nl : α} {l s : List α} {lines chunks : List (List α)}

/-! ### Texts and messages -/

theorem text_line (hl : nl ∉ l) (s : List α) : text nl (l ++ nl :: s) = l := by
  have hall : ∀ c ∈ l, c ≠ nl := fun c hc h => hl (h ▸ hc)
  rw [text, List.takeWhile_append_of_pos (by simpa using hall)]
  simp

theorem text_of_notMem (hl : nl ∉ l) : text nl l = l := by
  rw [text, List.takeWhile_eq_self_iff]
  intro c hc
  simpa using fun h : c = nl => hl (h ▸ hc)

@[simp] theorem text_nl (s : List α) : text nl (nl :: s) = [] := by simp [text]

theorem messages_cons_of_text (h : text nl s = l) (hne : l ≠ []) :
    messages nl (s :: chunks) = l :: messages nl chunks := by
  rw [messages, List.map_cons, h, List.filter_cons_of_pos (by simpa using hne), messages]

theorem messages_cons_of_empty (h : text nl s = []) :
    messages nl (s :: chunks) = messages nl chunks := by
  rw [messages, List.map_cons, h, List.filter_cons_of_neg (by simp), messages]

omit [DecidableEq α] in
theorem stream_cons (l : List α) (lines : List (List α)) :
    stream nl (l :: lines) = l ++ nl :: stream nl lines := by
  rw [stream, List.flatMap_cons, List.append_assoc]; rfl

/-- The messages of aligned chunks are the lines. -/
theorem Aligned.messages_eq (h : Aligned nl lines chunks) (hlines : ∀ l ∈ lines, l ≠ [] ∧ nl ∉ l) :
    messages nl chunks = lines := by
  induction h with
  | nil => rfl
  | @whole l lines chunks _ ih =>
    obtain ⟨hne, hnl⟩ := hlines l (by simp)
    rw [messages_cons_of_text (text_line hnl []) hne, ih fun l hl => hlines l (by simp [hl])]
  | @split l lines chunks _ ih =>
    obtain ⟨hne, hnl⟩ := hlines l (by simp)
    rw [messages_cons_of_text (text_of_notMem hnl) hne,
      messages_cons_of_empty (text_nl []),
      ih fun l hl => hlines l (by simp [hl])]

/-- The first of some aligned chunks has the first line as its text. -/
theorem Aligned.text_head (h : Aligned nl (l :: lines) (s :: chunks)) (hl : nl ∉ l) :
    text nl s = l := by
  cases h with
  | whole => exact text_line hl []
  | split => exact text_of_notMem hl

/-! ### Counting -/

theorem weight_append (s t : List α) : weight nl (s ++ t) = weight nl s + weight nl t :=
  List.countP_append

theorem weight_of_notMem (hl : nl ∉ l) : weight nl l = l.length := by
  rw [weight, List.countP_eq_length]
  intro c hc
  simpa using fun h : c = nl => hl (h ▸ hc)

theorem weight_stream (hlines : ∀ l ∈ lines, nl ∉ l) :
    weight nl (stream nl lines) = (lines.map List.length).sum := by
  induction lines with
  | nil => rfl
  | cons l lines ih =>
    have hend : weight nl (nl :: stream nl lines) = weight nl (stream nl lines) :=
      List.countP_cons_of_neg (by simp)
    rw [stream_cons, weight_append, weight_of_notMem (hlines l (by simp)), hend,
      ih fun l hl => hlines l (by simp [hl]), List.map_cons, List.sum_cons]

theorem length_text_le (nl : α) (s : List α) : (text nl s).length ≤ weight nl s := by
  have hnl : nl ∉ text nl s := fun h => by simpa using List.mem_takeWhile_imp h
  rw [← weight_of_notMem hnl]
  exact (List.takeWhile_sublist _).countP_le

/-- No byte of the stream is in two messages. -/
theorem sum_messages_le (nl : α) (chunks : List (List α)) :
    ((messages nl chunks).map List.length).sum ≤ weight nl chunks.flatten := by
  induction chunks with
  | nil => exact Nat.zero_le _
  | cons s chunks ih =>
    have hle := length_text_le nl s
    rw [List.flatten_cons, weight_append]
    rcases eq_or_ne (text nl s) [] with h | h
    · rw [messages_cons_of_empty h]; omega
    · rw [messages_cons_of_text rfl h, List.map_cons, List.sum_cons]; omega

/-- If the messages of the chunks begin with all the lines, nothing was dropped before the chunks.
    -/
theorem dropped_eq_nil (hlines : ∀ l ∈ lines, l ≠ [] ∧ nl ∉ l)
    (happ : s ++ chunks.flatten = stream nl lines) (hpre : lines <+: messages nl chunks) :
    s = [] := by
  have hsum : (lines.map List.length).sum ≤ ((messages nl chunks).map List.length).sum :=
    (hpre.sublist.map List.length).sum_le_sum fun _ _ => Nat.zero_le _
  have hle := sum_messages_le nl chunks
  have hweight := congrArg (weight nl) happ
  rw [weight_append, weight_stream fun l hl => (hlines l hl).2] at hweight
  have hzero : weight nl s = 0 := by omega
  -- so `s` is empty or starts with `nl`, as no line does
  cases s with
  | nil => rfl
  | cons c s =>
    exfalso
    cases lines with
    | nil => simp [stream] at happ
    | cons l lines =>
      obtain ⟨hne, hnl⟩ := hlines l (by simp)
      obtain ⟨b, l, rfl⟩ := List.exists_cons_of_ne_nil hne
      rw [stream_cons, List.cons_append, List.cons_append] at happ
      obtain rfl := (List.cons.inj happ).1
      rw [weight, List.countP_eq_zero] at hzero
      have hc : c = nl := by simpa using hzero c List.mem_cons_self
      exact hnl (by simp [hc])

/-! ### Alignment -/

/-- A first chunk with the text `l` of a stream that starts with line `l` is the line without its
    end, or reaches beyond it. -/
theorem first_chunk {t : List α} (hl : nl ∉ l) (happ : s ++ t = l ++ nl :: stream nl lines)
    (htext : text nl s = l) :
    (s = l ∧ t = nl :: stream nl lines) ∨ ∃ r, s = l ++ nl :: r ∧ r ++ t = stream nl lines := by
  rcases List.append_eq_append_iff.mp happ with ⟨u, hu, ht⟩ | ⟨u, hu, ht⟩
  · -- the chunk ends within the line
    have hs : nl ∉ s := fun h => hl (hu ▸ List.mem_append_left u h)
    rw [text_of_notMem hs] at htext
    rw [htext] at hu
    obtain rfl := List.self_eq_append_right.mp hu
    exact Or.inl ⟨htext, by rw [ht, List.nil_append]⟩
  · cases u with
    | nil =>
      rw [List.append_nil] at hu
      exact Or.inl ⟨hu, ht.symm⟩
    | cons c r =>
      obtain ⟨rfl, hr⟩ := List.cons.inj ht
      exact Or.inr ⟨r, hu, hr.symm⟩

/-- Chunks whose messages begin with all the lines are aligned with them. -/
theorem aligned_of_prefix (hlines : ∀ l ∈ lines, l ≠ [] ∧ nl ∉ l) (hchunks : [] ∉ chunks)
    (happ : chunks.flatten = stream nl lines) (hpre : lines <+: messages nl chunks) :
    Aligned nl lines chunks := by
  induction lines generalizing chunks with
  | nil =>
    cases chunks with
    | nil => exact .nil
    | cons s chunks => simp_all [stream]
  | cons l lines ih =>
    obtain ⟨hne, hnl⟩ := hlines l (by simp)
    have hrest : ∀ l ∈ lines, l ≠ [] ∧ nl ∉ l := fun l hl => hlines l (by simp [hl])
    cases chunks with
    | nil => simp [messages] at hpre
    | cons s chunks =>
      rw [List.mem_cons, not_or] at hchunks
      rw [List.flatten_cons, stream_cons] at happ
      -- the first byte is one of the line, so the first chunk has a text
      have htext : text nl s ≠ [] := by
        obtain ⟨b, l, rfl⟩ := List.exists_cons_of_ne_nil hne
        obtain ⟨c, s, rfl⟩ := List.exists_cons_of_ne_nil (Ne.symm hchunks.1)
        obtain rfl := (List.cons.inj happ).1
        have hc : c ≠ nl := fun h => hnl (by simp [h])
        simp [text, hc]
      rw [messages_cons_of_text rfl htext, List.cons_prefix_cons] at hpre
      obtain ⟨hl, hpre⟩ := hpre
      rcases first_chunk hnl happ hl.symm with ⟨rfl, ht⟩ | ⟨r, rfl, hr⟩
      · -- the end of the line starts the next chunk
        cases chunks with
        | nil => simp at ht
        | cons u chunks =>
          rw [List.mem_cons, not_or] at hchunks
          obtain ⟨c, r, rfl⟩ := List.exists_cons_of_ne_nil (Ne.symm hchunks.2.1)
          obtain ⟨rfl, hr⟩ := List.cons.inj ht
          rw [messages_cons_of_empty (text_nl r)] at hpre
          obtain rfl := dropped_eq_nil hrest hr hpre
          exact .split (ih hrest hchunks.2.2 hr hpre)
      · obtain rfl := dropped_eq_nil hrest hr hpre
        exact .whole (ih hrest hchunks.2 hr hpre)

end Framing
