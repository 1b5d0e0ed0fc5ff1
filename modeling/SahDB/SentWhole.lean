import SahDB.FlatServer
import SahDB.BucketFits

/-! No answer is cut.

    `handle_request` sends at most 8191 bytes, the prompt at the end included, and nothing tells a
    client that there were more. The flat map shows when that happens: a reply is a stored value or
    a text of the program's own, and values come from requests (`Flat.Narrow`). So a server whose
    values and requests leave room for the prompt sends every answer whole
    (`answers_sent_whole`). -/

namespace SahDB

/-! ### Values and replies -/

namespace Flat

/-- Every value of the map has at most `b` bytes. -/
def Narrow (b : ℕ) (m : Flat) : Prop := ∀ k e, m.lookup k = some e → e.1.length ≤ b

section Narrow
variable {b c : ℕ} {m : Flat}

theorem Narrow.erase (h : m.Narrow b) (k : Str) : Narrow b (m.erase k) := by
  intro k' e he
  rcases eq_or_ne k' k with rfl | hne
  · rw [AList.lookup_erase] at he
    cases he
  · rw [AList.lookup_erase_ne hne] at he
    exact h k' e he

theorem Narrow.insert (h : m.Narrow b) (k : Str) {e : Str × ℤ} (he : e.1.length ≤ b) :
    Narrow b (m.insert k e) := by
  intro k' e' he'
  rcases eq_or_ne k' k with rfl | hne
  · rw [AList.lookup_insert] at he'
    cases he'
    exact he
  · rw [AList.lookup_insert_ne hne] at he'
    exact h k' e' he'

theorem Narrow.touch (h : m.Narrow b) (k : Str) (now : ℤ) :
    Narrow b (m.touch k now).2 ∧ ∀ e ∈ (m.touch k now).1, e.1.length ≤ b := by
  unfold Flat.touch
  cases hl : m.lookup k with
  | none => exact ⟨h, by simp⟩
  | some e =>
    dsimp only
    split_ifs
    · exact ⟨h.erase k, by simp⟩
    · exact ⟨h, fun e' he' => Option.some.inj he' ▸ h k e hl⟩

theorem Narrow.read (h : m.Narrow b) (missing : Str) (found : Str × ℤ → Str)
    (hmissing : missing.length ≤ c) (hfound : ∀ e : Str × ℤ, e.1.length ≤ b → (found e).length ≤ c)
    (k : Str) (now : ℤ) :
    Narrow b (m.read missing found k now).1 ∧
      (m.read missing found k now).2.text.length ≤ c := by
  obtain ⟨hm, hlive⟩ := h.touch k now
  unfold Flat.read
  generalize m.touch k now = r at hm hlive
  obtain ⟨e, m'⟩ := r
  cases e with
  | none => exact ⟨hm, hmissing⟩
  | some e => exact ⟨hm, hfound e (hlive e rfl)⟩

theorem length_ackReply_le (code : Err) (hc : 40 ≤ c) : (ackReply code).text.length ≤ c := by
  have hok : (str "OK").length ≤ 40 := by decide
  have herr : (str "ERR").length ≤ 40 := by decide
  change (if code = 0 then str "OK" else str "ERR").length ≤ c
  split_ifs
  · exact hok.trans hc
  · exact herr.trans hc

theorem length_showSizeT_le (t : ℤ) : (showSizeT t).length ≤ 20 := by
  refine (Decimal.length_print_le_iff (by decide)).mpr ?_
  have hlt := Int.emod_lt_of_pos t (show (0 : ℤ) < 2 ^ 64 by decide)
  omega

/-- A call keeps the map narrow, and its reply is not much longer than a value. -/
theorem Narrow.step (h : m.Narrow b) (hb : b ≤ c) (hc : 40 ≤ c) (bound : ℕ) {call : Call}
    (hcall : ∀ k v ok, call = .insert k v ok → v.length ≤ b) :
    Narrow b (Flat.step bound m call).1 ∧
      ∀ r, (Flat.step bound m call).2 = .reply r → r.text.length ≤ c := by
  have hshort : ∀ {w : Str}, w.length ≤ 40 → w.length ≤ c := fun hw => hw.trans hc
  cases call with
  | insert k v ok =>
    refine ⟨?_, fun r hr => Answer.reply.inj hr ▸ length_ackReply_le _ hc⟩
    have hv := hcall k v ok rfl
    change Narrow b (m.set bound k v).2
    unfold Flat.set
    cases hl : m.lookup k with
    | none =>
      dsimp only
      split_ifs
      · exact h
      · exact h.insert k hv
    | some e => exact h.insert k hv
  | get k now =>
    obtain ⟨hm, hr⟩ := h.read (str "ERR") (fun e => e.1) (hshort (by decide))
      (fun e he => he.trans hb) k now
    exact ⟨hm, fun r hr' => Answer.reply.inj hr' ▸ hr⟩
  | getExpiry k now =>
    obtain ⟨hm, hr⟩ := h.read (red ++ str "ERR" ++ reset)
      (fun e => if e.2 ≠ -1 then showSizeT e.2 else red ++ str "NULL" ++ reset)
      (hshort (by decide)) (fun e _ => by
        split_ifs
        · exact hshort ((length_showSizeT_le e.2).trans (by decide))
        · exact hshort (by decide)) k now
    exact ⟨hm, fun r hr' => Answer.reply.inj hr' ▸ hr⟩
  | exists_ k now =>
    obtain ⟨hm, hr⟩ := h.read (bold ++ red ++ str "FALSE" ++ reset)
      (fun _ => bold ++ green ++ str "TRUE" ++ reset)
      (hshort (by decide)) (fun e _ => hshort (by decide)) k now
    exact ⟨hm, fun r hr' => Answer.reply.inj hr' ▸ hr⟩
  | getKv k now => exact ⟨(h.touch k now).1, fun r hr => by cases hr⟩
  | delete k =>
    refine ⟨?_, fun r hr => Answer.reply.inj hr ▸ length_ackReply_le _ hc⟩
    change Narrow b (m.delete k).2
    unfold Flat.delete
    split_ifs
    · exact h.erase k
    · exact h
  | updateExpiry k d now now' ok =>
    obtain ⟨hm, hlive⟩ := h.touch k now
    have hnull : (str "NULL").length ≤ c := hshort (by decide)
    have hok : (str "OK").length ≤ c := hshort (by decide)
    have hrun : Narrow b (m.expire k d now now').1 ∧ (m.expire k d now now').2.text.length ≤ c := by
      unfold Flat.expire
      generalize m.touch k now = r at hm hlive
      obtain ⟨e, m'⟩ := r
      cases e with
      | none => exact ⟨hm, hnull⟩
      | some e => exact ⟨hm.insert k (hlive e rfl), hok⟩
    exact ⟨hrun.1, fun r hr => Answer.reply.inj hr ▸ hrun.2⟩

end Narrow

end Flat

/-! ### Answers are sent whole -/

section Whole
variable {b c : ℕ} {m : Flat} {x : ReqEnv × Str}

theorem length_fill_le {ctx : CmdCtx} {a : Answer} (hctx : ctx.resp.length ≤ c)
    (ha : ∀ r, a = .reply r → r.text.length ≤ c) : (contextOf (ctx.fill a)).resp.length ≤ c := by
  cases a with
  | fault f => exact Nat.zero_le c
  | entry e => exact hctx
  | reply r =>
    change (fillCmdCtx ctx r.code r.text).resp.length ≤ c
    rw [fillCmdCtx]
    split_ifs
    · exact hctx
    · exact ha r rfl

/-- A word of a request is not longer than the request. -/
theorem length_of_mem_tokenize {req w : Str} (h : w ∈ tokenize req) : w.length ≤ req.length :=
  (List.sublist_flatten_of_mem h).length_le.trans (length_flatten_tokenize_le req)

theorem mem_tokenize_of_set {req k v : Str} (h : Query.parse req = some (.set k v)) :
    v ∈ tokenize req := by
  rcases tokens_of_parse h with
    ⟨name, key, htok, ⟨-, hq⟩ | ⟨-, hq⟩ | ⟨-, hq⟩⟩ |
    ⟨name, key, w, htok, ⟨-, hq⟩ | ⟨-, -, hq⟩ | ⟨-, hq⟩⟩ <;> cases hq
  rw [htok]
  simp

/-- A query keeps the map narrow, and its answer is not much longer than a value. -/
theorem Flat.Narrow.query (h : m.Narrow b) (hb : b ≤ c) (hc : 40 ≤ c) (bound : ℕ) {env : ReqEnv}
    {q : Query} (hq : ∀ k v, q = .set k v → v.length ≤ b) :
    Narrow b (q.run (Flat.step bound) env .fresh m).1 ∧
      (contextOf (q.run (Flat.step bound) env .fresh m).2).resp.length ≤ c := by
  have hcall : ∀ k v ok, q.call env = .insert k v ok → v.length ≤ b := by
    intro k v ok hins
    cases q <;> cases hins
    exact hq _ _ rfl
  have hfresh : CmdCtx.fresh.resp.length ≤ c := Nat.zero_le c
  obtain ⟨hm, hreply⟩ := h.step hb hc bound hcall
  have hfill := length_fill_le hfresh hreply
  by_cases hf : Query.Found (Flat.step bound m (q.call env)).2
  · cases hnext : q.next env with
    | none =>
      rw [Query.run_single hnext]
      exact ⟨hm, hfill⟩
    | some call =>
      have hnone : ∀ k v ok, call = .insert k v ok → v.length ≤ b := by
        intro k v ok hins
        cases q <;> cases hnext
        cases hins
      obtain ⟨hm', hreply'⟩ := hm.step hb hc bound hnone
      obtain ⟨ctx, hctx⟩ := fill_returns bound m (q.call env) .fresh
      rw [hctx] at hfill
      rw [Query.run_found hnext hf, hctx]
      exact ⟨hm', length_fill_le hfill hreply'⟩
  · rw [Query.run_not_found hf]
    exact ⟨hm, hfill⟩

theorem length_fixedAnswer_le (env : ReqEnv) (words : List Str) (hc : 900 ≤ c) :
    (fixedAnswer env words).resp.length ≤ c := by
  refine le_trans ?_ hc
  have hhelp : helpText.length ≤ 900 := by decide +kernel
  cases words with
  | nil => exact Nat.zero_le 900
  | cons name args =>
    rw [fixedAnswer]
    cases findCommand name with
    | none =>
      dsimp only
      decide
    | some cmd =>
      cases cmd with
      | help =>
        dsimp only
        split_ifs
        · exact hhelp
        · exact Nat.zero_le 900
      | get | exit | shutdown =>
        dsimp only
        split_ifs <;> decide
      | set | exists_ | delete | expire | save =>
        dsimp only
        decide

/-- A request that is not longer than a value may be. -/
theorem Flat.Narrow.serve (h : m.Narrow b) (hb : b ≤ c) (hc : 900 ≤ c) (hx : x.2.length ≤ b) :
    (m.serve x).1.Narrow b ∧ (m.serve x).2.resp.length ≤ c := by
  rw [Flat.serve]
  cases hq : Query.parse x.2 with
  | none => exact ⟨h, length_fixedAnswer_le _ _ hc⟩
  | some q =>
    refine h.query hb (le_trans (by decide) hc) _ fun k v hset => ?_
    rw [hset] at hq
    exact (length_of_mem_tokenize (mem_tokenize_of_set hq)).trans hx

/-- CORRECT: in every sound run that comes to no access out of bounds and in which allocation and
    the sums of EXPIRE go well, if the stored values and the requests are short enough for a value
    and the prompt to fit the buffer, every answer of the flat map is sent to its user whole, with
    the prompt behind it. -/
theorem answers_sent_whole {n : Node} (hm : Simulates n.db m) {master : Bool} {ticks : List Tick}
    (hsound : SoundRun n master ticks)
    (hplain : ∀ x ∈ calls (.start n master) ticks, PlainRequest x.2)
    (hlive : ¬ (Mealy.exec Server.step (.start n master) ticks).flow.Crashed)
    (hb : b + (str "\n" ++ userPrompt).length < maxRespLen) (hnarrow : m.Narrow b)
    (hreads : ∀ x ∈ calls (.start n master) ticks, x.2.2.length ≤ b) :
    let s := Mealy.exec Server.step (.start n master) ticks
    let log := calls (.start n master) ticks
    s.node.db.Safe ∧
      ∀ i < s.table.len, (s.table.conns i).connState ≠ .handshake →
        (s.table.conns i).connType = .user → sentTo i (readings (.start n master) ticks) =
          userPrompt :: (Mealy.answersTo Flat.serve i m log).map fun ctx =>
            ctx.resp ++ str "\n" ++ userPrompt := by
  intro s log
  refine ⟨hsound.safe, fun i hi hstate htype => ?_⟩
  have hsees := (sequenced_run master n ticks).sees i hi
  rw [sent_of_flat hsees hstate htype ((calls_follow_flat hm hplain hlive).2 i)]
  congr 1
  refine List.map_congr_left fun ctx hctx => ?_
  have hlen := Mealy.answersTo_forall (I := Flat.Narrow b)
    (A := fun x : ReqEnv × Str => x.2.length ≤ b)
    (Q := fun ctx : CmdCtx => ctx.resp.length ≤ max b 900)
    (fun m x h hx => h.serve (le_max_left b 900) (le_max_right b 900) hx) hnarrow hreads ctx hctx
  rw [CmdCtx.sent, List.append_assoc, List.take_of_length_le]
  have hprompt : (str "\n" ++ userPrompt).length = 8 := rfl
  rw [hprompt] at hb
  rw [List.length_append, hprompt]
  simp only [maxRespLen] at hb ⊢
  omega

end Whole

/-- Of a server that starts empty: reads of at most 511 bytes are short enough. -/
theorem answers_sent_whole_get :
    sentTo 0 (readings (.start ⟨htInit, none⟩ true) getTicks) =
    [userPrompt, str "OK" ++ str "\n" ++ userPrompt, str "1" ++ str "\n" ++ userPrompt] := by
  have hnarrow : Flat.Narrow 511 ∅ := fun k e he => by cases he
  have h := (@answers_sent_whole 511 ∅ ⟨htInit, none⟩ simulates_init true getTicks getTicks_sound
    (by decide +kernel) (getTicks_flow ▸ not_crashed_next) (by decide) hnarrow
    (by decide +kernel)).2 0 (by decide +kernel) (by decide +kernel) (by decide +kernel)
  rw [h]
  decide +kernel

end SahDB
