import SahDB.Faults
import SahDB.Cli

/-! Requests without a connection (`processCommand` with a NULL context).

    A server without a port answers on its own terminal: `fill_cmd_ctx` hands each text to
    `send_info_to_user`, which is mute while `SILENT` is set. EXPIRE sets it around its search, and
    a lazy deletion inside that search clears it again. The store and the code are those a client
    over the network gets, and the terminal shows the client's answer for exactly the requests that
    `TellsElse` leaves (`processCommand_alike`). -/

namespace SahDB

/-! ### The terminal -/

/-- `SILENT` and what has been written to `output_fd`. -/
structure Terminal where
  silent : Bool
  shown : List Str
  deriving DecidableEq, Repr

/-- `send_info_to_user` -/
def Terminal.send (t : Terminal) (data : Str) : Terminal :=
  if t.silent = true ∨ data = [] then t else { t with shown := t.shown ++ [data] }

/-- What a handler without a context leaves behind. -/
structure LocalDone where
  node : Node
  term : Terminal
  res : Err

/-- `lazy_expire_and_delete`, called for a key, deletes its entry. -/
def lapses (s : Db) (k : Str) (now : ℤ) : Bool :=
  match walk s k (s.buckets (stringFoldingHash k)) with
  | none => false
  | some e => (lazyExpireAndDelete s e now).1 = dbErrKeyExpired

namespace Local

/-- A store function that deletes nothing lazily, or has, and then shows its text. -/
def reply (n : Node) (t : Terminal) (lapsed : Bool) (r : Db × Reply) : LocalDone :=
  ⟨{ n with db := r.1 }, (if lapsed then { t with silent := false } else t).send r.2.text, r.2.code⟩

/-- A wrong number of arguments. -/
def refuse (n : Node) (t : Terminal) (resp : Str) : LocalDone :=
  ⟨n, t.send resp, dbErrInvalidArgs⟩

/-- `exit_helper` and `shutdown_helper` -/
def leaveHelper (text : Str) (code : Err) (cmdArr : List Str) (n : Node) (t : Terminal) :
    LocalDone :=
  if cmdArr.length ≠ 1 then refuse n t (red ++ str "ERR" ++ reset)
  else ⟨n, t.send (red ++ bold ++ text ++ reset), code⟩

/-- `set_key_val_helper` -/
def setKeyValHelper (env : ReqEnv) (cmdArr : List Str) (n : Node) (t : Terminal) :
    Except Fault LocalDone :=
  if cmdArr.length ≠ 3 then return refuse n t (red ++ str "ERR" ++ reset)
  else do
    let key ← arg cmdArr 1
    let val ← arg cmdArr 2
    return reply n t false (hashInsert n.db key val env.mallocOk)

/-- `get_val_from_key_helper` -/
def getValFromKeyHelper (env : ReqEnv) (cmdArr : List Str) (n : Node) (t : Terminal) :
    Except Fault LocalDone :=
  if cmdArr.length < 2 then
    return refuse n t (red ++ str "Incorrect number of args passed, run HELP GET" ++ reset)
  else if cmdArr.length = 2 then do
    let key ← arg cmdArr 1
    return reply n t (lapses n.db key env.time₁) (← hashGet n.db key env.time₁)
  else if cmdArr.length = 3 then do
    let option ← arg cmdArr 2
    if strcaseEq option (str "ex") then
      let key ← arg cmdArr 1
      return reply n t (lapses n.db key env.time₁) (hashGetExpiry n.db key env.time₁)
    else return ⟨n, t, 0⟩
  else return ⟨n, t, 0⟩

/-- `exists_helper`; a wrong number of arguments is told here and again by `fill_cmd_ctx`. -/
def existsHelper (env : ReqEnv) (cmdArr : List Str) (n : Node) (t : Terminal) :
    Except Fault LocalDone :=
  let resp := red ++ str "Incorrect number of args passed, run HELP EXISTS" ++ reset
  if cmdArr.length ≠ 2 then return refuse n (t.send resp) resp
  else do
    let key ← arg cmdArr 1
    return reply n t (lapses n.db key env.time₁) (hashExists n.db key env.time₁)

/-- `delete_key_value_helper` -/
def deleteKeyValueHelper (cmdArr : List Str) (n : Node) (t : Terminal) : Except Fault LocalDone :=
  if cmdArr.length ≠ 2 then return refuse n (t.send (str "ERR")) (str "ERR")
  else do
    let key ← arg cmdArr 1
    return reply n t false (hashDelete n.db key)

/-- `expire_key_val`: the search runs with `SILENT` set. -/
def expireKeyVal (env : ReqEnv) (cmdArr : List Str) (n : Node) (t : Terminal) :
    Except Fault LocalDone :=
  if cmdArr.length ≠ 3 then return refuse n (t.send (str "ERR")) (str "ERR")
  else do
    let key ← arg cmdArr 1
    let expiry := CStr.atol (← arg cmdArr 2)
    let found := reply n { t with silent := true } (lapses n.db key env.time₁)
      (hashExists n.db key env.time₁)
    let t := { found.term with silent := false }
    if found.res = 0 then
      return reply found.node t (lapses found.node.db key env.time₂)
        (hashUpdateExpiry found.node.db key expiry env.time₂ env.time₃ env.reallocOk)
    else return ⟨found.node, t, 0⟩

/-- `save_helper`; `fetch_dataset_from_memory` tells what it has done to the save file. -/
def saveHelper (savefile : Str) (env : ReqEnv) (cmdArr : List Str) (n : Node) (t : Terminal) :
    Except Fault LocalDone :=
  if cmdArr.length ≠ 1 then return refuse n t (str "OK")
  else do
    let (res, disk) ← fetchDatasetFromMemory env.fopenOk env.callocOk n.db.table n.disk
    let resp := if env.fopenOk then str "Data from disk written to " ++ savefile
      else str "Error opening " ++ savefile ++ str " file"
    return ⟨{ n with disk := disk }, t.send resp, res⟩

/-- `help_helper` -/
def helpHelper (cmdArr : List Str) (n : Node) (t : Terminal) : Except Fault LocalDone :=
  if cmdArr.length = 1 then return ⟨n, t.send helpText, 0⟩
  else if cmdArr.length = 2 then do
    let subcmd ← arg cmdArr 1
    if subcmd ≠ [] then
      printSubCommands subcmd
      return ⟨n, t.send (red ++ str "Not support subcmd print for " ++ subcmd ++ str " yet" ++
        reset), dbErrInvalidArgs⟩
    else return ⟨n, t, 0⟩
  else return ⟨n, t, 0⟩

/-- The handler of a command. -/
def handler (savefile : Str) (env : ReqEnv) (cmdArr : List Str) (n : Node) (t : Terminal) :
    Command → Except Fault LocalDone
  | .help => helpHelper cmdArr n t
  | .set => setKeyValHelper env cmdArr n t
  | .exists_ => existsHelper env cmdArr n t
  | .get => getValFromKeyHelper env cmdArr n t
  | .delete => deleteKeyValueHelper cmdArr n t
  | .expire => expireKeyVal env cmdArr n t
  | .save => saveHelper savefile env cmdArr n t
  | .exit => return leaveHelper (str "Bye...") dbErrExit cmdArr n t
  | .shutdown => return leaveHelper (str "Goodbye...") dbErrShutdown cmdArr n t

/-- `processCommand` with a NULL context. -/
def processCommand (savefile : Str) (env : ReqEnv) (n : Node) (req : Str) (t : Terminal) :
    Except Fault LocalDone :=
  if env.cmdArrOk = false then return ⟨n, t, dbErrNomem⟩
  else do
    let cmdArr := tokenize req
    let name ← arg cmdArr 0
    match findCommand name with
    | none => return ⟨n, t.send (str "ERR"), dbErrCmdNotexist⟩
    | some cmd => handler savefile env cmdArr n t cmd

end Local

/-! ### Both ways of answering -/

/-- The texts a client gets for what is in its context. -/
def told (resp : Str) : List Str := if resp = [] then [] else [resp]

/-- The requests for which the terminal does not show what a client gets: HELP with one word, which
    only the terminal is told about; a wrong number of arguments for EXISTS, DELETE or EXPIRE, told
    twice; EXPIRE of a key that is not stored, which is not told; and SAVE, told in other words. -/
def TellsElse (n : Node) : List Str → Prop
  | [] => False
  | name :: args =>
    match findCommand name with
    | some .help => args.length = 1
    | some .exists_ | some .delete => args.length ≠ 1
    | some .expire => args.length ≠ 2 ∨ ∃ k ∈ args.head?, n.db.table.find k = none
    | some .save => args = []
    | _ => False

/-- A request over the network and the same one without a connection: the same fault, or the same
    node and code, and the texts told are the same unless `tellsElse`. -/
def Alike (shown : List Str) (tellsElse : Prop) : Except Fault Done → Except Fault LocalDone → Prop
  | .error f, .error f' => f = f'
  | .ok d, .ok d' => d'.node = d.node ∧ d'.res = d.res ∧
      ∃ texts, d'.term = ⟨false, shown ++ texts⟩ ∧ (texts = told d.ctx.resp ↔ ¬ tellsElse)
  | _, _ => False

section Alike
variable {env : ReqEnv} {n : Node} {t : Terminal} {shown : List Str} {savefile : Str}

theorem send_eq (shown : List Str) (data : Str) :
    (⟨false, shown⟩ : Terminal).send data = ⟨false, shown ++ told data⟩ := by
  rw [Terminal.send, told]
  by_cases h : data = []
  · rw [if_pos (Or.inr h), if_pos h, List.append_nil]
  · rw [if_neg (by simpa using h), if_neg h]

theorem fill_fresh_resp (res : Err) (resp : Str) : (fillCmdCtx .fresh res resp).resp = resp := by
  rw [fillCmdCtx]
  split_ifs with h
  · exact h.symm
  · rfl

/-- A text goes into the context, or to the terminal. -/
theorem alike_fill {tellsElse : Prop} (h : ¬ tellsElse) (m : Node) (res res' : Err) (resp : Str) :
    Alike shown tellsElse (.ok ⟨m, fillCmdCtx .fresh res' resp, res⟩)
      (.ok ⟨m, (⟨false, shown⟩ : Terminal).send resp, res⟩) := by
  refine ⟨rfl, rfl, told resp, send_eq shown resp, iff_of_true ?_ h⟩
  rw [fill_fresh_resp]

theorem alike_reply {tellsElse : Prop} (h : ¬ tellsElse) (lapsed : Bool) (r : Db × Reply) :
    Alike shown tellsElse (.ok (reply n .fresh r))
      (.ok (Local.reply n ⟨false, shown⟩ lapsed r)) := by
  have hterm : (if lapsed then { (⟨false, shown⟩ : Terminal) with silent := false }
      else ⟨false, shown⟩) = ⟨false, shown⟩ := ite_self _
  rw [Local.reply, hterm]
  exact alike_fill h _ r.2.code r.2.code r.2.text

/-- Nothing is told. -/
theorem alike_nothing {tellsElse : Prop} (h : ¬ tellsElse) (m : Node) (res : Err) :
    Alike shown tellsElse (.ok ⟨m, .fresh, res⟩) (.ok ⟨m, ⟨false, shown⟩, res⟩) :=
  ⟨rfl, rfl, [], by rw [List.append_nil], iff_of_true rfl h⟩

/-- The same text twice. -/
theorem alike_twice {tellsElse : Prop} (h : tellsElse) {resp : Str} (hne : resp ≠ []) :
    Alike shown tellsElse (.ok (refuse n .fresh resp))
      (.ok (Local.refuse n ((⟨false, shown⟩ : Terminal).send resp) resp)) := by
  refine ⟨rfl, rfl, told resp ++ told resp, ?_, iff_of_false ?_ (not_not.mpr h)⟩
  · rw [Local.refuse, send_eq, send_eq, List.append_assoc]
  · have hresp : (refuse n .fresh resp).ctx.resp = resp := fill_fresh_resp _ _
    rw [hresp, told, if_neg hne]
    simp

theorem bind_alike {α : Type} {tellsElse : Prop} (x : Except Fault α) {f : α → Except Fault Done}
    {g : α → Except Fault LocalDone} (h : ∀ a, x = .ok a → Alike shown tellsElse (f a) (g a)) :
    Alike shown tellsElse (x >>= f) (x >>= g) := by
  cases x with
  | error e => exact rfl
  | ok a => exact h a rfl

theorem setKeyValHelper_alike {tellsElse : Prop} (h : ¬ tellsElse) (name : Str) (args : List Str) :
    Alike shown tellsElse (setKeyValHelper env (name :: args) n .fresh)
      (Local.setKeyValHelper env (name :: args) n ⟨false, shown⟩) := by
  rcases args with _ | ⟨k, _ | ⟨v, _ | ⟨x, args⟩⟩⟩
  · exact alike_fill h _ _ _ _
  · exact alike_fill h _ _ _ _
  · exact alike_reply h false _
  · exact alike_fill h _ _ _ _

theorem getValFromKeyHelper_alike {tellsElse : Prop} (h : ¬ tellsElse) (name : Str)
    (args : List Str) : Alike shown tellsElse (getValFromKeyHelper env (name :: args) n .fresh)
      (Local.getValFromKeyHelper env (name :: args) n ⟨false, shown⟩) := by
  rcases args with _ | ⟨k, _ | ⟨w, _ | ⟨x, args⟩⟩⟩
  · exact alike_fill h _ _ _ _
  · exact bind_alike (hashGet n.db k env.time₁) fun r _ => alike_reply h _ r
  · have hrun : getValFromKeyHelper env [name, k, w] n .fresh =
        if strcaseEq w (str "ex") then .ok (reply n .fresh (hashGetExpiry n.db k env.time₁))
        else .ok ⟨n, .fresh, 0⟩ := rfl
    have hlocal : Local.getValFromKeyHelper env [name, k, w] n ⟨false, shown⟩ =
        if strcaseEq w (str "ex") then .ok (Local.reply n ⟨false, shown⟩
          (lapses n.db k env.time₁) (hashGetExpiry n.db k env.time₁))
        else .ok ⟨n, ⟨false, shown⟩, 0⟩ := rfl
    rw [hrun, hlocal]
    split_ifs
    · exact alike_reply h _ _
    · exact alike_nothing h n 0
  · exact alike_nothing h n 0

theorem existsHelper_alike (name : Str) (args : List Str) :
    Alike shown (args.length ≠ 1) (existsHelper env (name :: args) n .fresh)
      (Local.existsHelper env (name :: args) n ⟨false, shown⟩) := by
  rcases args with _ | ⟨k, _ | ⟨x, args⟩⟩
  · exact alike_twice (by simp) (by simp [red, str])
  · exact alike_reply (by simp) _ _
  · exact alike_twice (by simp) (by simp [red, str])

theorem deleteKeyValueHelper_alike (name : Str) (args : List Str) :
    Alike shown (args.length ≠ 1) (deleteKeyValueHelper (name :: args) n .fresh)
      (Local.deleteKeyValueHelper (name :: args) n ⟨false, shown⟩) := by
  rcases args with _ | ⟨k, _ | ⟨x, args⟩⟩
  · exact alike_twice (by simp) (by decide)
  · exact alike_reply (by simp) false _
  · exact alike_twice (by simp) (by decide)

theorem leaveHelper_alike {tellsElse : Prop} (h : ¬ tellsElse) (text : Str) (code : Err)
    (cmdArr : List Str) : Alike shown tellsElse (.ok (leaveHelper text code cmdArr n .fresh))
      (.ok (Local.leaveHelper text code cmdArr n ⟨false, shown⟩)) := by
  rw [leaveHelper, Local.leaveHelper]
  split_ifs
  · exact alike_fill h _ _ _ _
  · exact alike_fill h _ _ _ _

/-- What a search deletes on its way, in the terms of the table. -/
theorem lapses_cases (s : Db) (k : Str) (now : ℤ) :
    (s.table.find k = none ∧ lapses s k now = false ∧ hashGetKv s k now = (s, none)) ∨
    (∃ e, s.table.find k = some e ∧ lapses s k now = true ∧ (hashGetKv s k now).2 = none) ∨
    ∃ e a, s.table.find k = some e ∧ lapses s k now = false ∧
      hashGetKv s k now = (s, some a) := by
  rcases Db.find_cases s k with ⟨hnone, hall⟩ | ⟨a, pre, post, hat⟩
  · refine Or.inl ⟨hnone, ?_, ?_⟩
    · rw [lapses, walk_none s k hall]
    · rw [hashGetKv, walk_none s k hall]
  · refine Or.inr ?_
    rw [lapses, hashGetKv, hat.split, walk_split s k hat.key hat.first]
    dsimp only
    by_cases he : (s.kv a).Expired now
    · rw [lazyExpireAndDelete_expired s k hat he]
      exact Or.inl ⟨_, hat.find, rfl, rfl⟩
    · rw [lazyExpireAndDelete_live s he]
      exact Or.inr ⟨_, a, hat.find, rfl, rfl⟩

/-- The terminal after a search with `SILENT` set: only a lazy deletion lets the text through. -/
theorem searched_term (lapsed : Bool) (r : Db × Reply) :
    ({ (Local.reply n ⟨true, shown⟩ lapsed r).term with silent := false } : Terminal) =
      ⟨false, if lapsed then shown ++ told r.2.text else shown⟩ := by
  cases lapsed with
  | false =>
    have hmute : (⟨true, shown⟩ : Terminal).send r.2.text = ⟨true, shown⟩ := if_pos (Or.inl rfl)
    simp [Local.reply, hmute]
  | true =>
    simp only [Local.reply, if_true]
    rw [send_eq]

/-- The answer of a second call hides that of the first one. -/
theorem alike_over {tellsElse : Prop} (h : ¬ tellsElse) (ctx : CmdCtx) (lapsed : Bool)
    {r : Db × Reply} (htext : r.2.text ≠ []) :
    Alike shown tellsElse (.ok (reply n ctx r)) (.ok (Local.reply n ⟨false, shown⟩ lapsed r)) := by
  have hctx : fillCmdCtx ctx r.2.code r.2.text = fillCmdCtx .fresh r.2.code r.2.text := by
    rw [fillCmdCtx, fillCmdCtx, if_neg htext, if_neg htext]
  have hreply : reply n ctx r = reply n .fresh r := by rw [reply, reply, hctx]
  rw [hreply]
  exact alike_reply h lapsed r

/-- The search of EXPIRE is mute, but for a key it has just deleted. -/
theorem expireKeyVal_alike (name : Str) (args : List Str) :
    Alike shown (args.length ≠ 2 ∨ ∃ k ∈ args.head?, n.db.table.find k = none)
      (expireKeyVal env (name :: args) n .fresh)
      (Local.expireKeyVal env (name :: args) n ⟨false, shown⟩) := by
  rcases args with _ | ⟨k, _ | ⟨w, _ | ⟨x, args⟩⟩⟩
  · exact alike_twice (by simp) (by decide)
  · exact alike_twice (by simp) (by decide)
  · have hkey : ([k, w].length ≠ 2 ∨ ∃ j ∈ [k, w].head?, n.db.table.find j = none) ↔
        n.db.table.find k = none := by simp
    have hrun : expireKeyVal env [name, k, w] n .fresh =
        let found := reply n .fresh (hashExists n.db k env.time₁)
        if found.res = 0 then .ok (reply found.node found.ctx (hashUpdateExpiry found.node.db k
          (CStr.atol w) env.time₂ env.time₃ env.reallocOk))
        else .ok { found with res := 0 } := rfl
    have hlocal : Local.expireKeyVal env [name, k, w] n ⟨false, shown⟩ =
        let found := Local.reply n ⟨true, shown⟩ (lapses n.db k env.time₁)
          (hashExists n.db k env.time₁)
        let t : Terminal := { found.term with silent := false }
        if found.res = 0 then .ok (Local.reply found.node t
          (lapses found.node.db k env.time₂) (hashUpdateExpiry found.node.db k (CStr.atol w)
            env.time₂ env.time₃ env.reallocOk))
        else .ok ⟨found.node, t, 0⟩ := rfl
    have hnotexist : dbErrKeyNotexist ≠ 0 := by decide
    have hmissing : hashGetKv n.db k env.time₁ = ((hashGetKv n.db k env.time₁).1, none) →
        (hashExists n.db k env.time₁).2 =
          ⟨dbErrKeyNotexist, bold ++ red ++ str "FALSE" ++ reset⟩ := by
      intro hget
      rw [hashExists, hashRead_eq, hget]
    rw [hrun, hlocal, hkey]
    dsimp only
    rw [searched_term]
    rcases lapses_cases n.db k env.time₁ with ⟨hnone, hl, hget⟩ | ⟨e, hfind, hl, hget⟩ |
      ⟨e, a, hfind, hl, hget⟩
    · -- not stored: the client is told, the terminal is not
      have hex := hmissing (by rw [hget])
      have hres : ¬ (hashExists n.db k env.time₁).2.code = 0 := by rw [hex]; exact hnotexist
      rw [if_neg (show ¬ (reply n .fresh _).res = 0 from hres),
        if_neg (show ¬ (Local.reply n ⟨true, shown⟩ _ _).res = 0 from hres), hl]
      refine ⟨rfl, rfl, [], ?_, iff_of_false ?_ (not_not.mpr hnone)⟩
      · rw [List.append_nil]
        rfl
      · dsimp only
        rw [reply_fresh_resp, hex, told, if_neg (by simp [bold, str])]
        simp
    · -- deleted by this search: both are told
      have hex := hmissing (Prod.ext rfl hget)
      have hres : ¬ (hashExists n.db k env.time₁).2.code = 0 := by rw [hex]; exact hnotexist
      rw [if_neg (show ¬ (reply n .fresh _).res = 0 from hres),
        if_neg (show ¬ (Local.reply n ⟨true, shown⟩ _ _).res = 0 from hres), hl]
      refine ⟨rfl, rfl, told (hashExists n.db k env.time₁).2.text, rfl, iff_of_true ?_ ?_⟩
      · dsimp only
        rw [reply_fresh_resp]
      · rw [hfind]
        simp
    · have hcode : (hashExists n.db k env.time₁).2.code = 0 := by
        rw [hashExists, hashRead_eq, hget]
      rw [if_pos (show (reply n .fresh _).res = 0 from hcode),
        if_pos (show (Local.reply n ⟨true, shown⟩ _ _).res = 0 from hcode), hl]
      exact alike_over (by simp [hfind]) _ _ (hashUpdateExpiry_text _ _ _ _ _ _)
  · exact alike_twice (by simp) (by decide)

/-- The words of SAVE on the terminal are not those a client gets. -/
theorem saveHelper_alike (name : Str) (args : List Str) :
    Alike shown (args = []) (saveHelper env (name :: args) n .fresh)
      (Local.saveHelper savefile env (name :: args) n ⟨false, shown⟩) := by
  cases args with
  | nil =>
    rw [saveHelper, Local.saveHelper, if_neg (by simp), if_neg (by simp)]
    refine bind_alike _ fun r _ => ?_
    generalize hresp : (if env.fopenOk then str "Data from disk written to " ++ savefile
      else str "Error opening " ++ savefile ++ str " file") = resp
    have hhead : resp.head? ≠ (str "OK").head? := by
      rw [← hresp]
      split_ifs <;> simp [str]
    have hne : resp ≠ [] := by
      rw [← hresp]
      split_ifs <;> simp [str]
    refine ⟨rfl, rfl, told resp, send_eq shown resp, iff_of_false ?_ (not_not.mpr rfl)⟩
    dsimp only
    rw [fill_fresh_resp, told, told, if_neg hne, if_neg (show str "OK" ≠ [] by decide)]
    intro h
    exact hhead (congrArg List.head? (List.cons.inj h).1)
  | cons x args => exact alike_fill (by simp) _ _ _ _

/-- A word of HELP is answered on the terminal only. -/
theorem helpHelper_alike (name : Str) {args : List Str} (hargs : [] ∉ args) :
    Alike shown (args.length = 1) (helpHelper (name :: args) n .fresh)
      (Local.helpHelper (name :: args) n ⟨false, shown⟩) := by
  rcases args with _ | ⟨w, _ | ⟨x, args⟩⟩
  · exact alike_fill (by simp) _ _ _ _
  · have hw : w ≠ [] := fun h => hargs (by simp [h])
    have hrun : helpHelper [name, w] n .fresh = if w ≠ [] then
        printSubCommands w >>= fun _ => .ok ⟨n, .fresh, dbErrInvalidArgs⟩
        else .ok ⟨n, .fresh, 0⟩ := rfl
    have hlocal : Local.helpHelper [name, w] n ⟨false, shown⟩ = if w ≠ [] then
        printSubCommands w >>= fun _ => .ok ⟨n, (⟨false, shown⟩ : Terminal).send
          (red ++ str "Not support subcmd print for " ++ w ++ str " yet" ++ reset),
          dbErrInvalidArgs⟩
        else .ok ⟨n, ⟨false, shown⟩, 0⟩ := rfl
    rw [hrun, hlocal, if_pos hw, if_pos hw]
    generalize hresp : red ++ str "Not support subcmd print for " ++ w ++ str " yet" ++ reset = resp
    have hne : resp ≠ [] := by simp [← hresp, red, str]
    refine bind_alike _ fun _ _ => ⟨rfl, rfl, told resp, send_eq shown resp,
      iff_of_false ?_ (by simp)⟩
    rw [told, if_neg hne]
    simp [told, CmdCtx.fresh]
  · exact alike_nothing (by simp) n 0

theorem handler_alike {name : Str} {args : List Str} (hargs : [] ∉ args) {cmd : Command}
    (hcmd : findCommand name = some cmd) :
    Alike shown (TellsElse n (name :: args)) (handler env (name :: args) n .fresh cmd)
      (Local.handler savefile env (name :: args) n ⟨false, shown⟩ cmd) := by
  rw [TellsElse, hcmd]
  cases cmd with
  | help => exact helpHelper_alike name hargs
  | set => exact setKeyValHelper_alike id name args
  | exists_ => exact existsHelper_alike name args
  | get => exact getValFromKeyHelper_alike id name args
  | delete => exact deleteKeyValueHelper_alike name args
  | expire => exact expireKeyVal_alike name args
  | save => exact saveHelper_alike name args
  | exit => exact leaveHelper_alike id _ _ _
  | shutdown => exact leaveHelper_alike id _ _ _

theorem tokenize_ne_nil {req w : Str} (h : w ∈ tokenize req) : w ≠ [] :=
  (CStr.mem_tokens (List.mem_of_mem_take h)).1

/-- In every store, every request does the same without a connection as it does for a client: it
    faults alike, or leaves the same store and file and returns the same code. And the terminal
    shows exactly the text the client gets unless `TellsElse`. -/
theorem processCommand_alike (savefile : Str) (env : ReqEnv) (n : Node) (req : Str)
    (shown : List Str) :
    Alike shown (env.cmdArrOk = true ∧ TellsElse n (tokenize req))
      (processCommand env n req .fresh)
      (Local.processCommand savefile env n req ⟨false, shown⟩) := by
  rw [processCommand, Local.processCommand]
  by_cases henv : env.cmdArrOk = true
  · rw [if_neg (by simp [henv]), if_neg (by simp [henv]), eq_true henv, true_and]
    refine bind_alike _ fun name hname => ?_
    obtain ⟨args, htok⟩ := arg_zero hname
    cases hcmd : findCommand name with
    | none =>
      refine alike_fill ?_ n _ _ _
      rw [htok, TellsElse, hcmd]
      exact id
    | some cmd =>
      rw [htok]
      refine handler_alike (fun h => ?_) hcmd
      exact tokenize_ne_nil (htok ▸ List.mem_cons_of_mem name h) rfl
  · have hmem : env.cmdArrOk = false := by simpa using henv
    rw [if_pos hmem, if_pos hmem]
    exact alike_nothing (fun h => henv h.1) n _

end Alike

end SahDB
