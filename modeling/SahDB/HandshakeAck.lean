import SahDB.Replica

/-! The acknowledgement of the handshake.

    `replica_handshake_ack` takes the third `;`-field and the second `=`-word of the second field,
    and compares both without a check for NULL. So it needs three fields; and once the third is OK,
    a second `=`-word, which need not be all that follows the name. -/

namespace SahDB
open CStr (tokens)

/-- The fields of an acknowledgement. -/
def ackFields (data : Str) : List Str := tokens (· = semicolon) data

/-- The words of one of them. -/
def ackWords (field : Str) : List Str := tokens (· = equals) field

/-- The field has the form `name=uuid`. -/
def Names (field uuid : Str) : Prop :=
  ∃ name, name ≠ [] ∧ equals ∉ name ∧ field = name ++ equals :: uuid

/-- What an acknowledgement has to say: the second field names the uuid, the third is OK. -/
def Acknowledges (data uuid : Str) : Prop :=
  ∃ f1 f2 rest, ackFields data = f1 :: f2 :: str "OK" :: rest ∧ Names f2 uuid

/-- A field with a single `=`, between two words. -/
def Pair (field : Str) : Prop := ∃ name val, name ≠ [] ∧ val ≠ [] ∧ equals ∉ val ∧
  equals ∉ name ∧ field = name ++ equals :: val

/-- A field that is read for what it says: a pair, or two words and no trace of the uuid. -/
def Readable (field uuid : Str) : Prop :=
  Pair field ∨
    ∃ name val rest, ackWords field = name :: val :: rest ∧ val ≠ uuid ∧ ¬ Names field uuid

/-- Three fields, and a second one to be read if the third is OK. -/
def AckReadable (data uuid : Str) : Prop :=
  ∃ f1 f2 f3 rest, ackFields data = f1 :: f2 :: f3 :: rest ∧ (f3 = str "OK" → Readable f2 uuid)

/-! ### One field -/

section Field
variable {field uuid name val : Str} {rest : List Str}

theorem ackWords_pair (hname : name ≠ []) (hval : val ≠ []) (hname' : equals ∉ name)
    (hval' : equals ∉ val) : ackWords (name ++ equals :: val) = [name, val] := by
  rw [ackWords, CStr.tokens_upto hname hname', CStr.tokens_whole hval hval']

theorem Readable.two_words (h : Readable field uuid) :
    ∃ name val rest, ackWords field = name :: val :: rest := by
  rcases h with ⟨name, val, hname, hval, hval', hname', rfl⟩ | ⟨name, val, rest, hwords, -⟩
  · exact ⟨name, val, [], ackWords_pair hname hval hname' hval'⟩
  · exact ⟨name, val, rest, hwords⟩

/-- The second word tells whether the field names the uuid exactly in readable fields. -/
theorem readable_iff (hwords : ackWords field = name :: val :: rest) :
    (val = uuid ↔ Names field uuid) ↔ Readable field uuid := by
  constructor
  · intro h
    rcases eq_or_ne val uuid with rfl | hne
    · obtain ⟨n, hn, hn', rfl⟩ := h.mp rfl
      obtain ⟨hval, hval'⟩ := CStr.mem_tokens (t := val) (hwords ▸ List.mem_cons_of_mem _ (by simp))
      refine Or.inl ⟨n, val, hn, hval, fun hmem => ?_, hn', rfl⟩
      exact absurd (hval' _ hmem).1 (by simp)
    · exact Or.inr ⟨name, val, rest, hwords, hne, fun hn => hne (h.mpr hn)⟩
  · rintro (⟨n, v, hn, hv, hv', hn', rfl⟩ | ⟨n, v, r, hwords', hne, hnot⟩)
    · rw [ackWords_pair hn hv hn' hv'] at hwords
      cases hwords
      constructor
      · rintro rfl
        exact ⟨name, hn, hn', rfl⟩
      · rintro ⟨m, -, hm', heq⟩
        exact (CStr.append_cons_inj hn' hm' heq).2
    · cases hwords.symm.trans hwords'
      exact iff_of_false hne hnot

end Field

/-! ### The parser -/

section Parser
variable {data uuid : Str}

/-- The seven calls, each on its string. -/
theorem ackTokens_eq (data : Str) :
    ((ackTokens data).run []).1 =
      let r1 := CStr.strtokR (· = semicolon) data
      let r2 := CStr.strtokR (· = semicolon) r1.2
      let r3 := CStr.strtokR (· = semicolon) r2.2
      let v1 := CStr.strtokR (· = equals) (r1.1.getD r3.2)
      let v2 := CStr.strtokR (· = equals) v1.2
      let u1 := CStr.strtokR (· = equals) (r2.1.getD v2.2)
      (r3.1, (CStr.strtokR (· = equals) u1.2).1) := rfl

theorem ackTokens_fst (data : Str) : ((ackTokens data).run []).1.1 = (ackFields data)[2]? := by
  rw [ackTokens_eq, ackFields]
  simp only [CStr.strtokR_fst, CStr.tokens_strtokR_snd]
  cases tokens (· = semicolon) data with
  | nil => rfl
  | cons f1 fs => cases fs <;> simp [List.head?_eq_getElem?]

theorem ackTokens_of_three {f1 f2 f3 : Str} {rest : List Str}
    (h : ackFields data = f1 :: f2 :: f3 :: rest) :
    ((ackTokens data).run []).1 = (some f3, (ackWords f2)[1]?) := by
  rw [ackFields] at h
  rw [ackTokens_eq, ackWords]
  simp only [CStr.strtokR_fst, CStr.tokens_strtokR_snd, h]
  simp [List.head?_eq_getElem?]

/-- A line that is read whole. -/
theorem socketReadData_line (h0 : (0 : UInt8) ∉ data) (hn : CStr.newline ∉ data) :
    socketReadData (.data data) = (dbErrOk, data) := by
  have hline : data.takeWhile (· ≠ CStr.newline) = data := by
    rw [List.takeWhile_eq_self_iff]
    intro c hc
    simpa using fun h : c = CStr.newline => hn (h ▸ hc)
  rw [socketReadData, upToNewline, CStr.cut_of_notMem h0, hline]

/-- Without a third field the first comparison gets NULL. -/
theorem ack_of_short (h0 : (0 : UInt8) ∉ data) (hn : CStr.newline ∉ data)
    (h : (ackFields data)[2]? = none) :
    replicaHandshakeAck (.data data) uuid = .error .nullDeref := by
  obtain ⟨uuid_val, hrun⟩ : ∃ uuid_val, ((ackTokens data).run []).1 = (none, uuid_val) :=
    ⟨_, Prod.ext ((ackTokens_fst data).trans h) rfl⟩
  simp only [replicaHandshakeAck, socketReadData_line h0 hn, hrun]
  rfl

section Three
variable {f1 f2 f3 : Str} {rest : List Str}

theorem acknowledges_iff (h : ackFields data = f1 :: f2 :: f3 :: rest) :
    Acknowledges data uuid ↔ f3 = str "OK" ∧ Names f2 uuid := by
  constructor
  · rintro ⟨g1, g2, rest', h', hg⟩
    cases h.symm.trans h'
    exact ⟨rfl, hg⟩
  · rintro ⟨rfl, hf⟩
    exact ⟨f1, f2, rest, h, hf⟩

theorem ackReadable_iff (h : ackFields data = f1 :: f2 :: f3 :: rest) :
    AckReadable data uuid ↔ (f3 = str "OK" → Readable f2 uuid) := by
  constructor
  · rintro ⟨g1, g2, g3, rest', h', hg⟩
    cases h.symm.trans h'
    exact hg
  · exact fun hf => ⟨f1, f2, f3, rest, h, hf⟩

theorem ack_of_not_ok (h0 : (0 : UInt8) ∉ data) (hn : CStr.newline ∉ data)
    (h : ackFields data = f1 :: f2 :: f3 :: rest) (hok : f3 ≠ str "OK") :
    replicaHandshakeAck (.data data) uuid = .ok dbErrGenericFail := by
  simp only [replicaHandshakeAck, socketReadData_line h0 hn, ackTokens_of_three h, strcmpEq]
  simp [hok, bind, Except.bind, pure, Except.pure]

/-- With OK in the third field the second word of the second field decides. -/
theorem ack_of_ok (h0 : (0 : UInt8) ∉ data) (hn : CStr.newline ∉ data)
    (h : ackFields data = f1 :: f2 :: str "OK" :: rest) :
    replicaHandshakeAck (.data data) uuid =
      match (ackWords f2)[1]? with
      | none => .error .nullDeref
      | some val => .ok (if val = uuid then dbErrOk else dbErrGenericFail) := by
  simp only [replicaHandshakeAck, socketReadData_line h0 hn, ackTokens_of_three h, strcmpEq]
  cases (ackWords f2)[1]? with
  | none => simp [bind, Except.bind]
  | some val =>
    rcases eq_or_ne val uuid with rfl | hval <;>
      simp [*, bind, Except.bind, pure, Except.pure]

end Three

theorem ok_code_iff {val : Str} :
    (Except.ok (if val = uuid then dbErrOk else dbErrGenericFail) : Except Fault Err) =
      .ok dbErrOk ↔ val = uuid := by
  split_ifs with hval
  · exact iff_of_true rfl hval
  · exact iff_of_false (by decide) hval

/-- CORRECT: for a line without NUL, the parser compares no NULL and accepts just the lines that
    acknowledge the uuid exactly if the line is readable. -/
theorem ack_exact_iff (h0 : (0 : UInt8) ∉ data) (hn : CStr.newline ∉ data) :
    (replicaHandshakeAck (.data data) uuid ≠ .error .nullDeref ∧
        (replicaHandshakeAck (.data data) uuid = .ok dbErrOk ↔ Acknowledges data uuid)) ↔
      AckReadable data uuid := by
  rcases hthird : (ackFields data)[2]? with _ | f3
  · -- NULL reaches the first comparison
    refine iff_of_false (fun h => h.1 (ack_of_short h0 hn hthird)) ?_
    rintro ⟨f1, f2, f3, rest, hfields, -⟩
    rw [hfields] at hthird
    cases hthird
  · obtain ⟨f1, f2, rest, hfields⟩ : ∃ f1 f2 rest, ackFields data = f1 :: f2 :: f3 :: rest := by
      rcases hf : ackFields data with _ | ⟨f1, _ | ⟨f2, _ | ⟨f3', rest⟩⟩⟩ <;> rw [hf] at hthird <;>
        cases hthird
      exact ⟨f1, f2, rest, rfl⟩
    rw [acknowledges_iff hfields, ackReadable_iff hfields]
    rcases eq_or_ne f3 (str "OK") with rfl | hok
    · rw [ack_of_ok h0 hn hfields, and_iff_right rfl, imp_iff_right rfl]
      rcases hwords : (ackWords f2)[1]? with _ | val
      · -- NULL reaches the second one
        refine iff_of_false (fun h => h.1 rfl) fun h => ?_
        obtain ⟨name, val, words, hwords'⟩ := h.two_words
        rw [hwords'] at hwords
        cases hwords
      · obtain ⟨name, words, hwords'⟩ : ∃ name words, ackWords f2 = name :: val :: words := by
          rcases hw : ackWords f2 with _ | ⟨name, _ | ⟨val', words⟩⟩ <;> rw [hw] at hwords <;>
            cases hwords
          exact ⟨name, words, rfl⟩
        dsimp only
        rw [ok_code_iff, and_iff_right (by simp), readable_iff hwords']
    · rw [ack_of_not_ok h0 hn hfields hok]
      refine iff_of_true ⟨by simp, ?_⟩ fun h => absurd h hok
      exact iff_of_false (by decide) fun h => hok h.1

end Parser

/-- A peer that answers with one letter makes the master compare NULL. -/
theorem ack_compares_null :
    ¬ ∀ data uuid : Str, data ≠ [] → data.length ≤ maxRespLen - 2 → (0 : UInt8) ∉ data →
      CStr.newline ∉ data → replicaHandshakeAck (.data data) uuid ≠ .error .nullDeref ∧
        (replicaHandshakeAck (.data data) uuid = .ok dbErrOk ↔ Acknowledges data uuid) := by
  intro h
  exact (h (str "A") (str "u") (by decide) (by decide) (by decide) (by decide)).1 rfl

/-- A doubled `=` passes for one. -/
example : replicaHandshakeAck (.data (str "V=0.0.1;REPL_ID==u;OK")) (str "u") = .ok dbErrOk := rfl

/-- The acknowledgement the protocol asks for. -/
theorem ack_exact_iff_ok :
    replicaHandshakeAck (.data (str "REPL_VERS=0.0.1;REPL_ID=u;OK")) (str "u") = .ok dbErrOk := by
  have hfields : ackFields (str "REPL_VERS=0.0.1;REPL_ID=u;OK") =
      [str "REPL_VERS=0.0.1", str "REPL_ID=u", str "OK"] := by
    rw [ackFields, show str "REPL_VERS=0.0.1;REPL_ID=u;OK" = str "REPL_VERS=0.0.1" ++ semicolon ::
        (str "REPL_ID=u" ++ semicolon :: str "OK") from rfl,
      CStr.tokens_upto (by decide) (by decide), CStr.tokens_upto (by decide) (by decide),
      CStr.tokens_whole (by decide) (by decide)]
  have hnames : Names (str "REPL_ID=u") (str "u") := ⟨str "REPL_ID", by decide, by decide, rfl⟩
  refine ((ack_exact_iff (by decide) (by decide)).mpr ⟨_, _, _, _, hfields, fun _ => ?_⟩).2.mpr
    ⟨_, _, _, hfields, hnames⟩
  exact Or.inl ⟨str "REPL_ID", str "u", by decide, by decide, by decide, by decide, rfl⟩

end SahDB
