import SahDB.Config
import SahDB.Network

/-! The configuration file line by line.

    What a line says depends on its own bytes only (`directive`), and so does what it leaves in the
    array (`lineImage`): the loop body is both (`configLine_eq`). So the port and the master are
    those of the last line that gives one. The path of the save file stays in the array, where every
    later line writes over it as far as that line reaches. -/

namespace SahDB
open CStr LastWrite

/-! ### Trimming -/

/-- The number of blanks in front of a string. -/
def lead (s : Str) : ℕ := (s.takeWhile isSpace).length

/-- The string without the blanks around it. -/
def strip (s : Str) : Str := (s.dropWhile isSpace).rdropWhile isSpace

/-- What `trim` makes of the bytes of a string. -/
def wipe (s : Str) : Str := s.set (lead s + (strip s).length) 0

section Trim
variable {s : Str}

theorem set_offset (a b : Str) (k : ℕ) (c : UInt8) :
    (a ++ b).set (a.length + k) c = a ++ b.set k c := by
  rw [List.set_append_right _ _ (Nat.le_add_right _ _), Nat.add_sub_cancel_left]

/-- Ending a string of the array earlier. -/
theorem set_nul {k : ℕ} (hk : k ≤ s.length) (t : Str) :
    (s ++ 0 :: t).set k 0 = s.set k 0 ++ 0 :: t := by
  rcases Nat.lt_or_eq_of_le hk with hlt | rfl
  · exact List.set_append_left _ _ hlt
  · rw [List.set_eq_of_length_le le_rfl]
    exact set_offset s (0 :: t) 0 0

/-- A string is blanks, its stripped part and what follows, where `trim` puts the NUL. -/
theorem exists_strip (s : Str) :
    ∃ a b, a.length = lead s ∧ s = a ++ (strip s ++ b) ∧ wipe s = a ++ (strip s ++ b.set 0 0) := by
  obtain ⟨b, hb⟩ := List.rdropWhile_prefix isSpace (l := s.dropWhile isSpace)
  have hs : s = s.takeWhile isSpace ++ (strip s ++ b) := by
    rw [strip, hb, List.takeWhile_append_dropWhile]
  refine ⟨s.takeWhile isSpace, b, rfl, hs, ?_⟩
  calc wipe s
      = (s.takeWhile isSpace ++ (strip s ++ b)).set (lead s + (strip s).length) 0 :=
        congrArg (fun t : Str => t.set _ 0) hs
    _ = s.takeWhile isSpace ++ (strip s ++ b).set (strip s).length 0 := set_offset _ _ _ _
    _ = s.takeWhile isSpace ++ (strip s ++ b.set 0 0) := by
        rw [← set_offset (strip s) b 0 0, Nat.add_zero]

theorem length_wipe (s : Str) : (wipe s).length = s.length := List.length_set ..

theorem nul_notMem_strip (h0 : (0 : UInt8) ∉ s) : (0 : UInt8) ∉ strip s := by
  obtain ⟨a, b, -, hs, -⟩ := exists_strip s
  rw [hs] at h0
  simp only [List.mem_append, not_or] at h0
  exact h0.2.1

theorem length_strip_le (s : Str) : lead s + (strip s).length ≤ s.length := by
  obtain ⟨a, b, ha, hs, -⟩ := exists_strip s
  have hlen := congrArg List.length hs
  simp only [List.length_append] at hlen
  omega

/-- The string behind the blanks of a string of the array. -/
theorem strAt_lead (h0 : (0 : UInt8) ∉ s) (pre post : Str) :
    strAt (pre ++ (s ++ 0 :: post)) (pre.length + lead s) = s.dropWhile isSpace := by
  have hs : pre ++ (s ++ 0 :: post) =
      pre ++ s.takeWhile isSpace ++ (s.dropWhile isSpace ++ 0 :: post) := by
    conv_lhs => rw [← List.takeWhile_append_dropWhile (p := isSpace) (l := s)]
    simp only [List.append_assoc]
  have hdrop : (0 : UInt8) ∉ s.dropWhile isSpace := fun h =>
    h0 ((List.dropWhile_suffix isSpace).subset h)
  have hlen : pre.length + lead s = (pre ++ s.takeWhile isSpace).length := by
    rw [List.length_append, lead]
  rw [hs, hlen, strAt_append hdrop]

/-- `trim` on a string of the array. -/
theorem trim_eq (h0 : (0 : UInt8) ∉ s) (pre post : Str) :
    trim (pre ++ (s ++ 0 :: post)) pre.length =
      (pre ++ (wipe s ++ 0 :: post), pre.length + lead s) := by
  rw [trim, strAt_append h0]
  rw [← lead, strAt_lead h0, ← strip]
  split_ifs with hnil
  · have hlead : lead s + (strip s).length = s.length := by
      have happ := congrArg List.length (List.takeWhile_append_dropWhile (p := isSpace) (l := s))
      rw [hnil, List.append_nil] at happ
      rw [strip, hnil, List.rdropWhile_nil, lead, happ]
      rfl
    rw [wipe, hlead, List.set_eq_of_length_le le_rfl]
  · rw [Nat.add_assoc, set_offset, set_nul (length_strip_le s), wipe]

/-- The array around the string `trim` returns. -/
theorem exists_array (s pre post : Str) : ∃ x t, x.length = pre.length + lead s ∧
    pre ++ (wipe s ++ 0 :: post) = x ++ (strip s ++ 0 :: t) := by
  obtain ⟨a, b, ha, -, hw⟩ := exists_strip s
  have hnul : ∃ t, b.set 0 0 ++ 0 :: post = 0 :: t := by
    cases b with
    | nil => exact ⟨post, rfl⟩
    | cons c b => exact ⟨b ++ 0 :: post, rfl⟩
  obtain ⟨t, ht⟩ := hnul
  refine ⟨pre ++ a, t, by rw [List.length_append, ha], ?_⟩
  rw [hw, ← ht]
  simp only [List.append_assoc]

/-- The string `trim` returns. -/
theorem strAt_wipe (h0 : (0 : UInt8) ∉ s) (pre post : Str) :
    strAt (pre ++ (wipe s ++ 0 :: post)) (pre.length + lead s) = strip s := by
  obtain ⟨x, t, hx, harr⟩ := exists_array s pre post
  rw [harr, ← hx, strAt_append (nul_notMem_strip h0)]

/-- Ending that string at one of its bytes leaves two strings. -/
theorem strAt_wipe_cut {n q : Str} {c : UInt8} (h0 : (0 : UInt8) ∉ s)
    (hs : strip s = n ++ c :: q) (pre post : Str) :
    let arr := pre ++ ((wipe s).set (lead s + n.length) 0 ++ 0 :: post)
    (pre ++ (wipe s ++ 0 :: post)).set (pre.length + lead s + n.length) 0 = arr ∧
      strAt arr (pre.length + lead s) = n ∧ strAt arr (pre.length + lead s + n.length + 1) = q := by
  intro arr
  have hle := length_strip_le s
  have hnul := nul_notMem_strip h0
  rw [hs] at hle hnul
  simp only [List.length_append, List.length_cons] at hle
  simp only [List.mem_append, List.mem_cons, not_or] at hnul
  have harr : (pre ++ (wipe s ++ 0 :: post)).set (pre.length + lead s + n.length) 0 = arr := by
    rw [Nat.add_assoc, set_offset, set_nul (by rw [length_wipe]; omega)]
  obtain ⟨x, t, hx, hsplit⟩ := exists_array s pre post
  have htwo : arr = x ++ (n ++ 0 :: (q ++ 0 :: t)) := by
    rw [← harr, hsplit, hs, ← hx, set_offset, List.append_assoc, List.cons_append]
    exact congrArg (x ++ ·) (set_offset n (c :: (q ++ 0 :: t)) 0 0)
  refine ⟨harr, ?_, ?_⟩
  · rw [htwo, ← hx, strAt_append hnul.1]
  · have hthree : arr = x ++ n ++ [0] ++ (q ++ 0 :: t) := by rw [htwo]; simp
    have hlen : x.length + n.length + 1 = (x ++ n ++ [0]).length := by simp [Nat.add_assoc]
    rw [hthree, ← hx, hlen, strAt_append hnul.2.2]

end Trim

/-! ### What a line says and what it leaves -/

/-- What a line asks for. A savefile line also tells where in the array its value starts. -/
inductive Directive where
  | port (n : ℤ)
  | savefile (path : Str) (pos : ℕ)
  | master (name : Str) (port : ℤ)
  | badMaster
  | daemonize
  | isMaster
  | other
  deriving DecidableEq, Repr

/-- What a field asks for, with its value at position `pos`. -/
def fieldDirective (field value : Str) (pos : ℕ) : Directive :=
  if strcaseEq field (str "port") ∧ atoi value > 0 then .port (atoi value)
  else if strcaseEq field (str "savefile") then .savefile value pos
  else if strcaseEq field (str "master") then
    match split colon value with
    | some (name, port) => .master name (atoi port)
    | none => .badMaster
  else if strcaseEq field (str "daemonize") ∧ strcaseEq value (str "yes") then .daemonize
  else .other

/-- What the text of a line asks for. -/
def directive (text : Str) : Directive :=
  match split equalSign text with
  | none => if strcaseEq text (str "ismaster") then .isMaster else .other
  | some (field, value) =>
    fieldDirective (strip field) (strip value) (field.length + 1 + lead value)

/-- What the loop does with it. -/
def Directive.apply (env : LineEnv) (s : Loading) : Directive → Loading
  | .port n => { s with serverPort := n }
  | .savefile _ pos =>
    if env.fopenOk then { s with savefile := .line pos, rebuild := true }
    else { s with savefile := .path defaultSaveFile, res := dbErrGenericFail }
  | .master name p =>
    if env.mallocOk then { s with master := some ⟨name, false, -1, p⟩ }
    else { s with res := dbErrNomem }
  | .badMaster =>
    if env.mallocOk then { s with res := dbErrInvalidArgs } else { s with res := dbErrNomem }
  | .daemonize => { s with daemonize := 1 }
  | .isMaster => { s with isMasterNode := true }
  | .other => s

/-- The bytes in the place of a value after its line has been worked on. -/
def valueImage (mallocOk : Bool) (value : Str) : Directive → Str
  | .master name _ =>
    if mallocOk then (wipe value).set (lead value + name.length) 0 else wipe value
  | _ => wipe value

/-- The bytes in the place of a text. -/
def textImage (mallocOk : Bool) (text : Str) : Str :=
  match split equalSign text with
  | none => text
  | some (field, value) => wipe field ++ 0 :: valueImage mallocOk value (directive text)

/-- The bytes in the array, from its start, after a line has been worked on. -/
def lineImage (mallocOk : Bool) (piece : Str) : Str :=
  textImage mallocOk (upToNewline piece) ++
    0 :: (piece ++ [0]).drop ((upToNewline piece).length + 1)

section Line
variable {text field value : Str}

theorem length_textImage (mallocOk : Bool) (text : Str) :
    (textImage mallocOk text).length = text.length := by
  unfold textImage
  cases h : split equalSign text with
  | none => rfl
  | some fv =>
    obtain ⟨field, value⟩ := fv
    have hval : ∀ d, (valueImage mallocOk value d).length = value.length := by
      intro d
      unfold valueImage
      split
      · split <;> simp [length_wipe]
      · exact length_wipe value
    simp [hval, length_wipe, (split_eq_some_iff.mp h).1]

theorem upToNewline_starts (piece : Str) : upToNewline piece <+: piece :=
  (List.takeWhile_prefix _).trans (List.takeWhile_prefix _)

theorem length_lineImage (mallocOk : Bool) (piece : Str) :
    (lineImage mallocOk piece).length = piece.length + 1 := by
  have hle := (upToNewline_starts piece).length_le
  simp only [lineImage, List.length_append, length_textImage, List.length_cons, List.length_drop,
    List.length_nil]
  omega

/-- The array with the image of a line in place. -/
theorem overlay_lineImage (mallocOk : Bool) (piece line : Str) :
    overlay (lineImage mallocOk piece) line =
      textImage mallocOk (upToNewline piece) ++
        0 :: ((piece ++ [0]).drop ((upToNewline piece).length + 1) ++
          line.drop (piece.length + 1)) := by
  rw [overlay, length_lineImage, lineImage, List.append_assoc, List.cons_append]

/-- Reading a line: its text, a NUL, and the rest of what `fgets` has written. -/
theorem endLine_eq (piece line : Str) :
    endLine (overlay (piece ++ [0]) line) =
      upToNewline piece ++ 0 :: ((piece ++ [0]).drop ((upToNewline piece).length + 1) ++
        line.drop (piece.length + 1)) := by
  have hbuf : overlay (piece ++ [0]) line = piece ++ 0 :: line.drop (piece.length + 1) := by
    simp [overlay]
  have htext : (strAt (overlay (piece ++ [0]) line) 0).takeWhile (· ≠ newline) =
      upToNewline piece := by
    rw [hbuf, strAt, List.drop_zero, cut_append, upToNewline]
  obtain ⟨r, hr⟩ := upToNewline_starts piece
  rw [endLine, htext, hbuf]
  generalize upToNewline piece = text at hr ⊢
  generalize line.drop (piece.length + 1) = rest
  subst hr
  have hset : ∀ (c : UInt8) (t : Str), (text ++ c :: t).set text.length 0 = text ++ 0 :: t :=
    fun c t => set_offset text (c :: t) 0 0
  have hdrop : ∀ t : Str, (text ++ t).drop (text.length + 1) = t.tail := fun t => by
    rw [← List.drop_drop, List.drop_left, List.drop_one]
  cases r with
  | nil =>
    rw [List.append_nil, hset, hdrop]
    rfl
  | cons c r =>
    rw [List.append_assoc, List.append_assoc, List.cons_append, hset, hdrop]
    simp

theorem nul_notMem_upToNewline (piece : Str) : (0 : UInt8) ∉ upToNewline piece := fun h =>
  absurd (List.mem_takeWhile_imp ((List.takeWhile_prefix _).subset h)) (by decide)

/-- The chain of fields, on an array whose value has been trimmed. -/
theorem setField_eq (env : LineEnv) (s : Loading) (h0 : (0 : UInt8) ∉ value)
    (field pre tail : Str) :
    let d := fieldDirective field (strip value) (pre.length + lead value)
    setField env { s with line := pre ++ (wipe value ++ 0 :: tail) } field
        (pre.length + lead value) =
      d.apply env { s with line := pre ++ (valueImage env.mallocOk value d ++ 0 :: tail) } := by
  unfold setField fieldDirective
  dsimp only
  rw [strAt_wipe h0]
  split_ifs with hport hsave hfopen hmaster hmalloc hdaemon
  · rfl
  · exact (if_pos hfopen).symm
  · exact (if_neg hfopen).symm
  · rw [strchr_eq_split, strAt_wipe h0]
    cases hsplit : split colon (strip value) with
    | none => exact (if_pos hmalloc).symm
    | some np =>
      obtain ⟨name, port⟩ := np
      obtain ⟨hval, -⟩ := split_eq_some_iff.mp hsplit
      obtain ⟨harr, hname, hport'⟩ := strAt_wipe_cut h0 hval pre tail
      rw [Option.map_some]
      dsimp only
      rw [harr, hname, hport', valueImage, if_pos hmalloc]
      exact (if_pos hmalloc).symm
  · cases hsplit : split colon (strip value) with
    | none => exact (if_neg hmalloc).symm
    | some np =>
      rw [valueImage, if_neg hmalloc]
      exact (if_neg hmalloc).symm
  · rfl
  · rfl

/-- The two calls of `trim` on a line that has been split. -/
theorem trim_split (hf : (0 : UInt8) ∉ field) (hv : (0 : UInt8) ∉ value) (c : UInt8) (tail : Str) :
    trim ((field ++ c :: value ++ 0 :: tail).set field.length 0) 0 =
        (wipe field ++ 0 :: (value ++ 0 :: tail), lead field) ∧
      trim (wipe field ++ 0 :: (value ++ 0 :: tail)) (field.length + 1) =
        (wipe field ++ [0] ++ (wipe value ++ 0 :: tail),
          (wipe field ++ [0]).length + lead value) ∧
      strAt (wipe field ++ [0] ++ (wipe value ++ 0 :: tail)) (lead field) = strip field := by
  refine ⟨?_, ?_, ?_⟩
  · have hset : (field ++ c :: value ++ 0 :: tail).set field.length 0 =
        field ++ 0 :: (value ++ 0 :: tail) := by
      rw [List.append_assoc, List.cons_append]
      exact set_offset field (c :: (value ++ 0 :: tail)) 0 0
    rw [hset]
    simpa using trim_eq hf [] (value ++ 0 :: tail)
  · have hpre : wipe field ++ 0 :: (value ++ 0 :: tail) =
        wipe field ++ [0] ++ (value ++ 0 :: tail) := by simp
    have hlen : field.length + 1 = (wipe field ++ [0]).length := by simp [length_wipe]
    rw [hpre, hlen]
    exact trim_eq hv (wipe field ++ [0]) tail
  · simpa using strAt_wipe hf [] (wipe value ++ 0 :: tail)

/-- The loop body on one line. -/
theorem configLine_eq (env : LineEnv) (s : Loading) (piece : Str) :
    configLine env s piece =
      (directive (upToNewline piece)).apply env
        { s with line := overlay (lineImage env.mallocOk piece) s.line } := by
  have h0 := nul_notMem_upToNewline piece
  rw [configLine, endLine_eq, overlay_lineImage, strchr_eq_split]
  generalize upToNewline piece = text at h0 ⊢
  generalize (piece ++ [0]).drop (text.length + 1) ++ s.line.drop (piece.length + 1) = tail
  have htext : strAt (text ++ 0 :: tail) 0 = text := strAt_append h0 [] tail
  rw [htext, directive, textImage]
  cases hsplit : split equalSign text with
  | none =>
    rw [Option.map_none]
    dsimp only
    split_ifs <;> rfl
  | some fv =>
    obtain ⟨field, value⟩ := fv
    obtain ⟨rfl, -⟩ := split_eq_some_iff.mp hsplit
    simp only [List.mem_append, List.mem_cons, not_or] at h0
    obtain ⟨htrim, htrim', hfield⟩ := trim_split h0.1 h0.2.2 equalSign tail
    have hset := setField_eq env s h0.2.2 (strip field) (wipe field ++ [0]) tail
    rw [Option.map_some]
    dsimp only
    rw [Nat.zero_add, htrim]
    dsimp only
    rw [htrim']
    dsimp only
    rw [hfield, hset, directive, hsplit]
    simp [length_wipe]

/-- A savefile line leaves its value in the array, where the pointer points. -/
theorem strAt_of_savefile {piece path : Str} {pos : ℕ}
    (h : directive (upToNewline piece) = .savefile path pos) (mallocOk : Bool) (line : Str) :
    strAt (overlay (lineImage mallocOk piece) line) pos = path ∧ (0 : UInt8) ∉ path := by
  have h0 := nul_notMem_upToNewline piece
  rw [overlay_lineImage]
  generalize upToNewline piece = text at h h0 ⊢
  generalize (piece ++ [0]).drop (text.length + 1) ++ line.drop (piece.length + 1) = tail
  have hdir := h
  rw [directive] at h
  cases hsplit : split equalSign text with
  | none =>
    rw [hsplit] at h
    dsimp only at h
    split_ifs at h
  | some fv =>
    obtain ⟨field, value⟩ := fv
    obtain ⟨rfl, -⟩ := split_eq_some_iff.mp hsplit
    simp only [List.mem_append, List.mem_cons, not_or] at h0
    rw [hsplit] at h
    dsimp only [fieldDirective] at h
    split_ifs at h
    · cases h
      refine ⟨?_, nul_notMem_strip h0.2.2⟩
      have hval := strAt_wipe h0.2.2 (wipe field ++ [0]) tail
      rw [textImage, hsplit, hdir]
      simpa [valueImage, length_wipe] using hval
    · split at h <;> cases h

end Line

/-! ### Whole files -/

/-- The port a line gives. -/
def portPut (x : Str × ℕ) : Option ℤ :=
  match directive (upToNewline x.1) with
  | .port n => some n
  | _ => none

/-- The master a line gives, if there is memory for it. -/
def masterPut (env : ℕ → LineEnv) (x : Str × ℕ) : Option MasterInfo :=
  match directive (upToNewline x.1) with
  | .master name port => if (env x.2).mallocOk then some ⟨name, false, -1, port⟩ else none
  | _ => none

/-- The path a line gives: its own, or the default one. -/
def savePut (env : ℕ → LineEnv) (x : Str × ℕ) : Option Str :=
  match directive (upToNewline x.1) with
  | .savefile path _ => some (if (env x.2).fopenOk then path else defaultSaveFile)
  | _ => none

/-- The pointer it leaves for that. -/
def ptrPut (env : ℕ → LineEnv) (x : Str × ℕ) : Option SavePtr :=
  match directive (upToNewline x.1) with
  | .savefile _ pos => some (if (env x.2).fopenOk then .line pos else .path defaultSaveFile)
  | _ => none

/-- The loop over numbered lines. -/
def loadLoop (env : ℕ → LineEnv) (s : Loading) (xs : List (Str × ℕ)) : Loading :=
  xs.foldl (fun s x => configLine (env x.2) s x.1) s

section Loop
variable {env : ℕ → LineEnv} {s : Loading} {xs : List (Str × ℕ)}

/-- What one line leaves in the fields and in the array. -/
theorem configLine_fields (env : ℕ → LineEnv) (s : Loading) (x : Str × ℕ) :
    let s' := configLine (env x.2) s x.1
    s'.serverPort = (portPut x).getD s.serverPort ∧
      s'.master = ((masterPut env x).map some).getD s.master ∧
      s'.savefile = (ptrPut env x).getD s.savefile ∧
      s'.line = overlay (lineImage (env x.2).mallocOk x.1) s.line := by
  intro s'
  have hs' : s' = _ := configLine_eq (env x.2) s x.1
  rw [hs']
  unfold portPut masterPut ptrPut
  cases directive (upToNewline x.1) with
  | savefile path pos => dsimp only [Directive.apply]; split_ifs <;> exact ⟨rfl, rfl, rfl, rfl⟩
  | master name port => dsimp only [Directive.apply]; split_ifs <;> exact ⟨rfl, rfl, rfl, rfl⟩
  | badMaster => dsimp only [Directive.apply]; split_ifs <;> exact ⟨rfl, rfl, rfl, rfl⟩
  | port n => exact ⟨rfl, rfl, rfl, rfl⟩
  | daemonize => exact ⟨rfl, rfl, rfl, rfl⟩
  | isMaster => exact ⟨rfl, rfl, rfl, rfl⟩
  | other => exact ⟨rfl, rfl, rfl, rfl⟩

theorem loadLoop_port : (loadLoop env s xs).serverPort = (last portPut xs).getD s.serverPort :=
  foldl_get (fun s : Loading => s.serverPort) (fun s x => (configLine_fields env s x).1) s xs

theorem loadLoop_savefile :
    (loadLoop env s xs).savefile = (last (ptrPut env) xs).getD s.savefile :=
  foldl_get (fun s : Loading => s.savefile) (fun s x => (configLine_fields env s x).2.2.1) s xs

theorem loadLoop_master : (loadLoop env s xs).master = (last (masterPut env) xs).or s.master := by
  have hget : (loadLoop env s xs).master =
      (last (fun x => (masterPut env x).map some) xs).getD s.master :=
    foldl_get (fun s : Loading => s.master) (fun s x => (configLine_fields env s x).2.1) s xs
  have hmap : last (fun x => (masterPut env x).map some) xs = (last (masterPut env) xs).map some :=
    by rw [last, last, ← List.map_filterMap, List.getLast?_map]
  rw [hget, hmap]
  cases last (masterPut env) xs <;> rfl

/-- A byte of the array is the one that the last line to reach its position has left. -/
theorem loadLoop_line (p : ℕ) : (loadLoop env s xs).line.getD p 0 =
    (last (fun x => (lineImage (env x.2).mallocOk x.1)[p]?) xs).getD (s.line.getD p 0) := by
  refine foldl_get (fun s : Loading => s.line.getD p 0) (fun s x => ?_) s xs
  rw [(configLine_fields env s x).2.2.2]
  exact overlay_getD _ _ p 0

theorem savePut_of_savefile (env : ℕ → LineEnv) {x : Str × ℕ} {path : Str} {pos : ℕ}
    (h : directive (upToNewline x.1) = .savefile path pos) :
    savePut env x = some (if (env x.2).fopenOk then path else defaultSaveFile) ∧
      ptrPut env x = some (if (env x.2).fopenOk then .line pos else .path defaultSaveFile) := by
  rw [savePut, ptrPut, h]
  exact ⟨rfl, rfl⟩

theorem savePut_ne_none {x : Str × ℕ} {path : Str} {pos : ℕ}
    (h : directive (upToNewline x.1) = .savefile path pos) : savePut env x ≠ none := by
  rw [(savePut_of_savefile env h).1]
  nofun

/-- There is one way to cut the lines at the last savefile line. -/
theorem savefile_split_unique {pre post pre' post' : List (Str × ℕ)} {x x' : Str × ℕ}
    {path path' : Str} {pos pos' : ℕ} (h : pre ++ x :: post = pre' ++ x' :: post')
    (hx : directive (upToNewline x.1) = .savefile path pos)
    (hx' : directive (upToNewline x'.1) = .savefile path' pos')
    (hpost : ∀ y ∈ post, savePut env y = none) (hpost' : ∀ y ∈ post', savePut env y = none) :
    x = x' ∧ post = post' ∧ path = path' ∧ pos = pos' := by
  obtain ⟨rfl, rfl⟩ :=
    split_unique (savePut env) h (savePut_ne_none hx) (savePut_ne_none hx') hpost hpost'
  rw [hx] at hx'
  cases hx'
  exact ⟨rfl, rfl, rfl, rfl⟩

theorem exists_savefile {x : Str × ℕ} (h : savePut env x ≠ none) :
    ∃ path pos, directive (upToNewline x.1) = .savefile path pos := by
  unfold savePut at h
  cases hd : directive (upToNewline x.1) with
  | savefile path pos => exact ⟨path, pos, rfl⟩
  | _ => rw [hd] at h; exact absurd rfl h

theorem ptrPut_of_savePut {x : Str × ℕ} (h : savePut env x = none) : ptrPut env x = none := by
  cases hd : directive (upToNewline x.1) with
  | savefile path pos => exact absurd h (savePut_ne_none hd)
  | _ => rw [ptrPut, hd]

end Loop

/-- The value of the last savefile line that could be opened is still in the array: no later line
    reaches one of its bytes, or its terminator, or the last that does leaves the same byte. -/
def PathSurvives (env : ℕ → LineEnv) (xs : List (Str × ℕ)) : Prop :=
  ∀ pre x post path pos, xs = pre ++ x :: post →
    directive (upToNewline x.1) = .savefile path pos → (env x.2).fopenOk = true →
    (∀ y ∈ post, savePut env y = none) →
    ∀ j ≤ path.length, ∀ b,
      last (fun y => (lineImage (env y.2).mallocOk y.1)[pos + j]?) post = some b →
        b = path.getD j 0

section Path
variable {env : ℕ → LineEnv} {s : Loading} {xs : List (Str × ℕ)}

/-- The pointer of the last savefile line, read at the end. -/
theorem strAt_loadLoop_iff {x : Str × ℕ} {post : List (Str × ℕ)} {path : Str} {pos : ℕ}
    (h : directive (upToNewline x.1) = .savefile path pos) (pre : List (Str × ℕ)) :
    strAt (loadLoop env s (pre ++ x :: post)).line pos = path ↔
      ∀ j ≤ path.length, ∀ b,
        last (fun y => (lineImage (env y.2).mallocOk y.1)[pos + j]?) post = some b →
          b = path.getD j 0 := by
  set s' := configLine (env x.2) (loadLoop env s pre) x.1 with hs'
  have hloop : loadLoop env s (pre ++ x :: post) = loadLoop env s' post := by
    rw [loadLoop, List.foldl_append, List.foldl_cons]
    rfl
  obtain ⟨hval, h0⟩ := strAt_of_savefile h (env x.2).mallocOk (loadLoop env s pre).line
  rw [← (configLine_fields env _ x).2.2.2, strAt_eq_iff h0] at hval
  rw [hloop, strAt_eq_iff h0]
  refine forall₂_congr fun j hj => ?_
  rw [loadLoop_line, hval j hj]
  cases last (fun y => (lineImage (env y.2).mallocOk y.1)[pos + j]?) post with
  | none => exact iff_of_true rfl nofun
  | some b => simp

theorem savePath_iff {path₀ : Str} (hp : s.savefile = .path path₀) :
    (loadLoop env s xs).savePath = (last (savePut env) xs).getD path₀ ↔ PathSurvives env xs := by
  cases hl : last (savePut env) xs with
  | none =>
    have hnone := last_eq_none_iff.mp hl
    have hptr : (loadLoop env s xs).savefile = .path path₀ := by
      rw [loadLoop_savefile, last_eq_none_iff.mpr fun x hx => ptrPut_of_savePut (hnone x hx)]
      exact hp
    refine iff_of_true (by rw [Loading.savePath, hptr]; rfl) ?_
    intro pre x post path pos hxs hx
    exact absurd (hnone x (by simp [hxs])) (savePut_ne_none hx)
  | some b =>
    obtain ⟨pre, x, post, rfl, hput, hpost⟩ := exists_split_of_last hl
    have hne : savePut env x ≠ none := by rw [hput]; nofun
    obtain ⟨path, pos, hx⟩ := exists_savefile hne
    obtain ⟨hsave, hptr⟩ := savePut_of_savefile env hx
    have hend : (loadLoop env s (pre ++ x :: post)).savefile =
        if (env x.2).fopenOk then .line pos else .path defaultSaveFile := by
      rw [loadLoop_savefile, last_of_split hptr fun y hy => ptrPut_of_savePut (hpost y hy)]
      rfl
    rw [hput] at hsave
    rw [Option.getD_some, Option.some.inj hsave, Loading.savePath, hend]
    by_cases hopen : (env x.2).fopenOk = true
    · rw [if_pos hopen, if_pos hopen]
      dsimp only
      rw [strAt_loadLoop_iff hx]
      constructor
      · intro hall pre' x' post' path' pos' hxs hx' _ hpost'
        obtain ⟨rfl, rfl, rfl, rfl⟩ := savefile_split_unique hxs hx hx' hpost hpost'
        exact hall
      · intro hsurv
        exact hsurv pre x post path pos rfl hx hopen hpost
    · rw [if_neg hopen, if_neg hopen]
      refine iff_of_true rfl fun pre' x' post' path' pos' hxs hx' hopen' hpost' => ?_
      obtain ⟨rfl, -⟩ := savefile_split_unique hxs hx hx' hpost hpost'
      exact absurd hopen' hopen

/-- Lines that end before the value begins do no harm. -/
theorem pathSurvives_of_short {pre post : List (Str × ℕ)} {x : Str × ℕ} {path : Str} {pos : ℕ}
    (hx : directive (upToNewline x.1) = .savefile path pos)
    (hpost : ∀ y ∈ post, savePut env y = none ∧ y.1.length < pos) :
    PathSurvives env (pre ++ x :: post) := by
  intro pre' x' post' path' pos' hxs hx' _ hpost' j _ b hb
  obtain ⟨rfl, rfl, rfl, rfl⟩ :=
    savefile_split_unique hxs hx hx' (fun y hy => (hpost y hy).1) hpost'
  have hnone : last (fun y => (lineImage (env y.2).mallocOk y.1)[pos + j]?) post = none := by
    refine last_eq_none_iff.mpr fun y hy => List.getElem?_eq_none ?_
    have hlt := (hpost y hy).2
    rw [length_lineImage]
    omega
  rw [hnone] at hb
  cases hb

end Path

theorem length_le_chomp (l : Str) : l.length ≤ (chomp l).length + 1 := by
  unfold chomp
  split_ifs
  · rw [List.length_dropLast]
    omega
  · omega

/-- A file of short lines is loaded line by line. -/
theorem loadServerConfig_eq {file : Str}
    (hshort : ∀ l ∈ lines file, (chomp l).length < maxCmdLen - 1) (env : ℕ → LineEnv)
    (config : ServerConfig) (line : Str) :
    loadServerConfig env config line (some file) =
      loadLoop env ⟨config, line, dbErrOk⟩ (lines file).zipIdx := by
  have hpieces : pieces (maxCmdLen - 1) file = lines file := pieces_eq_lines fun l hl =>
    (length_le_chomp l).trans (hshort l hl)
  rw [loadServerConfig, hpieces, loadLoop]

/-- CORRECT: after a file of short lines the port is that of the last port line with a positive
    number, the master that of the last master line with a colon (and memory for it), and the save
    file that of the last savefile line, or the default one if that line could not be opened,
    exactly when the path of the last savefile line that could be opened survives in the array. -/
theorem config_as_stated_iff (env : ℕ → LineEnv) (config : ServerConfig) (path₀ line : Str)
    {file : Str} (hshort : ∀ l ∈ lines file, (chomp l).length < maxCmdLen - 1) :
    let xs := (lines file).zipIdx
    let s := loadServerConfig env { config with savefile := .path path₀ } line (some file)
    (s.serverPort = (last portPut xs).getD config.serverPort ∧
      s.master = (last (masterPut env) xs).or config.master ∧
      s.savePath = (last (savePut env) xs).getD path₀) ↔ PathSurvives env xs := by
  intro xs s
  have hs : s = loadLoop env ⟨{ config with savefile := .path path₀ }, line, dbErrOk⟩ xs :=
    loadServerConfig_eq hshort env _ line
  rw [hs, ← savePath_iff (s := ⟨{ config with savefile := .path path₀ }, line, dbErrOk⟩) rfl]
  exact ⟨fun h => h.2.2, fun h => ⟨loadLoop_port, loadLoop_master, h⟩⟩

/-- Every file can be opened, and memory is there. -/
def goodEnv : ℕ → LineEnv := fun _ => ⟨true, true⟩

/-- What `init_server_config` starts from. -/
def initialConfig : ServerConfig := ⟨0, .path defaultSaveFile, false, false, none, 0⟩

/-- The line after the savefile line ends its path where the value begins. -/
theorem later_line_ends_path :
    ¬ ∀ (env : ℕ → LineEnv) (config : ServerConfig) (path₀ line file : Str),
      (∀ l ∈ lines file, (chomp l).length < maxCmdLen - 1) →
        (loadServerConfig env { config with savefile := .path path₀ } line (some file)).savePath =
          (last (savePut env) (lines file).zipIdx).getD path₀ := by
  intro h
  have hshort : ∀ l ∈ lines (str "savefile=/tmp/x\ndaemonize=yes\n"),
      (chomp l).length < maxCmdLen - 1 := by decide
  have hpath := h goodEnv initialConfig defaultSaveFile [] _ hshort
  rw [loadServerConfig_eq hshort, savePath_iff rfl] at hpath
  have hbyte := hpath [] (str "savefile=/tmp/x\n", 0) [(str "daemonize=yes\n", 1)] (str "/tmp/x") 9
    rfl rfl rfl (List.forall_mem_singleton.mpr rfl) 0 (by decide) 0 rfl
  exact absurd hbyte (by decide)

/-- A port line behind the savefile line is too short to reach the path. -/
theorem config_as_stated_iff_port :
    let s := loadServerConfig goodEnv initialConfig [] (some (str "savefile=/tmp/x\nport=80\n"))
    s.serverPort = 80 ∧ s.savePath = str "/tmp/x" := by
  intro s
  have hshort : ∀ l ∈ lines (str "savefile=/tmp/x\nport=80\n"),
      (chomp l).length < maxCmdLen - 1 := by decide
  have hdir : directive (upToNewline (str "savefile=/tmp/x\n")) = .savefile (str "/tmp/x") 9 := rfl
  have hsurv : PathSurvives goodEnv
      ([] ++ (str "savefile=/tmp/x\n", 0) :: [(str "port=80\n", 1)]) :=
    pathSurvives_of_short hdir (List.forall_mem_singleton.mpr ⟨rfl, by decide⟩)
  have hstated :=
    (config_as_stated_iff goodEnv initialConfig defaultSaveFile [] hshort).mpr hsurv
  exact ⟨hstated.1, hstated.2.2⟩

end SahDB
