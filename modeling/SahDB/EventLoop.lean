import SahDB.ExpiryText
import SahDB.LocalMode

/-! The loop of a server without a port (`eventLoop` and `getAndProcessCommand`).

    Each turn asks for a line, refuses one that does not begin with a letter or a digit, and runs
    the others. `EXIT` is the only code the loop looks for, so a session whose lines stay within
    their memory is over exactly when EXIT has been typed: not by SHUTDOWN, and not at the end of
    the input (`session_over_iff`). Until then its store is the one a server would have that was
    sent the lines that are not refused, and its terminal shows what a client of that server gets
    (`session_follows_server`). -/

namespace SahDB
open Db

/-- `isalnum` in the C locale. -/
def isAlnum (c : UInt8) : Bool := (48 ≤ c && c ≤ 57) || (65 ≤ c && c ≤ 90) || (97 ≤ c && c ≤ 122)

/-- What one turn meets: the environment of the request, and what `read` returns. -/
abbrev Line := ReqEnv × Option Str

/-- The request of a line that is not refused. -/
def Line.request (x : Line) : Option (ReqEnv × Str) :=
  let cmd := getUserInput x.2
  if cmd = [] ∨ cmd.head?.any isAlnum = false ∨ x.2 = none then none else some (x.1, cmd)

/-- `getAndProcessCommand` -/
def getAndProcessCommand (savefile : Str) (n : Node) (t : Terminal) (x : Line) :
    Except Fault LocalDone :=
  let cmd := getUserInput x.2
  let t := t.send (str "sahDB> ")
  if cmd = [] ∨ cmd.head?.any isAlnum = false ∨ x.2 = none then
    return ⟨n, t.send (bold ++ red ++ str "Invalid operation requested" ++ reset),
      if x.2 = none then 1 else 0⟩
  else Local.processCommand savefile x.1 n cmd t

/-- A server in its local loop. -/
structure Session where
  node : Node
  silent : Bool
  flow : Flow

def Session.start (n : Node) : Session := ⟨n, false, .next⟩

/-- One turn of `eventLoop`, with what it shows. -/
def Session.step (savefile : Str) (s : Session) (x : Line) : Session × List Str :=
  if s.flow ≠ .next then (s, [])
  else
    match getAndProcessCommand savefile s.node ⟨s.silent, []⟩ x with
    | .error f =>
      ({ s with flow := .crash f }, ((⟨s.silent, []⟩ : Terminal).send (str "sahDB> ")).shown)
    | .ok d => (⟨d.node, d.term.silent, if d.res = dbErrExit then .shutdown else .next⟩,
        d.term.shown)

/-! ### The code of a request -/

section Code
variable {env : ReqEnv} {n : Node} {ctx : CmdCtx} {d : Done}

theorem storeCodes_ne_exit {code : Err} (h : code ∈ storeCodes) : code ≠ dbErrExit :=
  (stays_of_mem_storeCodes h).1

/-- EXIT on its own is the only request with its code. -/
theorem Returns.exit_iff {cmd : Command} {args : List Str} (h : Returns env n ctx cmd args d) :
    d.res = dbErrExit ↔ args = [] ∧ cmd = .exit := by
  have hinvalid : dbErrInvalidArgs ≠ dbErrExit := by decide
  have hzero : (0 : Err) ≠ dbErrExit := by decide
  cases h with
  | refused hargs =>
    refine iff_of_false hinvalid ?_
    rintro ⟨rfl, rfl⟩
    exact hargs rfl
  | help => exact iff_of_false hzero (by simp)
  | helpOf _ hres =>
    refine iff_of_false ?_ (by simp)
    rcases hres with rfl | rfl
    · exact hinvalid
    · exact hzero
  | getOf => exact iff_of_false hzero (by simp)
  | set k v => exact iff_of_false (storeCodes_ne_exit (hashInsert_storeCode _ _ _ _)) (by simp)
  | get hget => exact iff_of_false (storeCodes_ne_exit (hashGet_storeCode _ _ _ hget)) (by simp)
  | getEx => exact iff_of_false (storeCodes_ne_exit (hashRead_storeCode _ _ _ _ _)) (by simp)
  | exists_ k => exact iff_of_false (storeCodes_ne_exit (hashRead_storeCode _ _ _ _ _)) (by simp)
  | delete k => exact iff_of_false (storeCodes_ne_exit (hashDelete_storeCode _ _)) (by simp)
  | expire =>
    exact iff_of_false (storeCodes_ne_exit (hashUpdateExpiry_storeCode _ _ _ _ _ _)) (by simp)
  | expireOf => exact iff_of_false hzero (by simp)
  | save hsave =>
    exact iff_of_false (storeCodes_ne_exit (fetch_storeCode hsave)) (by simp)
  | exit => exact iff_of_true rfl ⟨rfl, rfl⟩
  | shutdown => exact iff_of_false (show dbErrShutdown ≠ dbErrExit by decide) (by simp)

/-- The line is `EXIT`, in a spelling the dispatch takes. -/
def Quits (words : List Str) : Prop := ∃ name, words = [name] ∧ findCommand name = some .exit

/-- The loop gets the code of EXIT from EXIT on its own only. -/
theorem processCommand_exit_iff {req : Str} (h : processCommand env n req ctx = .ok d) :
    d.res = dbErrExit ↔ env.cmdArrOk = true ∧ Quits (tokenize req) := by
  have hquits : ∀ {name : Str} {args : List Str}, Quits (name :: args) ↔
      args = [] ∧ findCommand name = some .exit := by
    intro name args
    constructor
    · rintro ⟨x, hx, hcmd⟩
      obtain ⟨rfl, rfl⟩ := List.cons.inj hx
      exact ⟨rfl, hcmd⟩
    · rintro ⟨rfl, hcmd⟩
      exact ⟨name, rfl, hcmd⟩
  cases dispatches_of_processCommand h with
  | nomem hmem => exact iff_of_false (show dbErrNomem ≠ dbErrExit by decide) (by simp [hmem])
  | unknown _ htok hcmd =>
    rw [htok, hquits, hcmd]
    exact iff_of_false (show dbErrCmdNotexist ≠ dbErrExit by decide) (by simp)
  | handled hmem htok hcmd hd =>
    rw [htok, hquits, hcmd, and_iff_right hmem, hd.exit_iff]
    simp

end Code

/-! ### One turn -/

section Turn
variable {savefile : Str} {s : Session} {x : Line} {n : Node} {shown : List Str}

/-- What the terminal shows for a line that is refused. -/
def refusal : Str := bold ++ red ++ str "Invalid operation requested" ++ reset

theorem getAndProcessCommand_refused (h : x.request = none) :
    getAndProcessCommand savefile n ⟨false, []⟩ x =
      .ok ⟨n, ⟨false, [str "sahDB> ", refusal]⟩, if x.2 = none then 1 else 0⟩ := by
  have hrefused : getUserInput x.2 = [] ∨ (getUserInput x.2).head?.any isAlnum = false ∨
      x.2 = none := by
    by_contra hc
    rw [Line.request, if_neg hc] at h
    cases h
  rw [getAndProcessCommand, if_pos hrefused, send_eq, send_eq]
  rfl

/-- A line that is not refused runs as the same request of a client does. -/
theorem getAndProcessCommand_request {r : ReqEnv × Str} (h : x.request = some r) :
    Alike [str "sahDB> "] (r.1.cmdArrOk = true ∧ TellsElse n (tokenize r.2))
      (processCommand r.1 n r.2 .fresh) (getAndProcessCommand savefile n ⟨false, []⟩ x) := by
  rw [Line.request] at h
  rw [getAndProcessCommand]
  split_ifs at h ⊢
  cases h
  rw [send_eq]
  exact processCommand_alike savefile _ n _ _

/-- The line ends the loop: EXIT on its own, or a request that faults. -/
def EndsLoop (s : Session) (x : Line) : Prop :=
  ∃ r ∈ x.request, r.1.cmdArrOk = true ∧
    (Quits (tokenize r.2) ∨ ∃ f, FaultsWith r.1 s.node.db.table f (tokenize r.2))

/-- What one turn does to a session that goes on. -/
inductive Turned (s : Session) (x : Line) : Session × List Str → Prop
  | refused : x.request = none → Turned s x (s, [str "sahDB> ", refusal])
  | ran {r : ReqEnv × Str} {ctx : CmdCtx} {texts : List Str} {flow : Flow} :
    x.request = some r → (s.node.serve r).2 = .ok ctx →
    (texts = told ctx.resp ↔ ¬ (r.1.cmdArrOk = true ∧ TellsElse s.node (tokenize r.2))) →
    (flow = .shutdown ∧ (r.1.cmdArrOk = true ∧ Quits (tokenize r.2)) ∨
      flow = .next ∧ ¬ (r.1.cmdArrOk = true ∧ Quits (tokenize r.2))) →
    Turned s x (⟨(s.node.serve r).1, false, flow⟩, str "sahDB> " :: texts)
  | crashed {r : ReqEnv × Str} {f : Fault} : x.request = some r → (s.node.serve r).2 = .error f →
    Turned s x ({ s with flow := .crash f }, [str "sahDB> "])

theorem Session.step_ok {d : LocalDone} (hsilent : s.silent = false) (hflow : s.flow = .next)
    (h : getAndProcessCommand savefile s.node ⟨false, []⟩ x = .ok d) :
    s.step savefile x =
      (⟨d.node, d.term.silent, if d.res = dbErrExit then .shutdown else .next⟩, d.term.shown) := by
  rw [Session.step, if_neg (not_not.mpr hflow), hsilent, h]

theorem Session.step_error {f : Fault} (hsilent : s.silent = false) (hflow : s.flow = .next)
    (h : getAndProcessCommand savefile s.node ⟨false, []⟩ x = .error f) :
    s.step savefile x = ({ s with flow := .crash f }, [str "sahDB> "]) := by
  rw [Session.step, if_neg (not_not.mpr hflow), hsilent, h]
  rfl

theorem serve_of_ok {n : Node} {r : ReqEnv × Str} {d : Done}
    (h : processCommand r.1 n r.2 .fresh = .ok d) : n.serve r = (d.node, .ok d.ctx) := by
  rw [CmdCtx.fresh] at h
  rw [Node.serve, h]

theorem serve_of_error {n : Node} {r : ReqEnv × Str} {f : Fault}
    (h : processCommand r.1 n r.2 .fresh = .error f) : n.serve r = (n, .error f) := by
  rw [CmdCtx.fresh] at h
  rw [Node.serve, h]

theorem step_turned (hsilent : s.silent = false) (hflow : s.flow = .next) (x : Line) :
    Turned s x (s.step savefile x) := by
  cases hreq : x.request with
  | none =>
    have hres : ¬ (if x.2 = none then 1 else 0 : Err) = dbErrExit := by
      split_ifs <;> decide
    have hsame : s = ⟨s.node, false, .next⟩ := by rw [← hsilent, ← hflow]
    rw [Session.step_ok hsilent hflow (getAndProcessCommand_refused hreq), if_neg hres, ← hsame]
    exact .refused hreq
  | some r =>
    have halike := @getAndProcessCommand_request savefile x s.node r hreq
    cases hrun : processCommand r.1 s.node r.2 .fresh with
    | error f =>
      rw [hrun] at halike
      cases hlocal : getAndProcessCommand savefile s.node ⟨false, []⟩ x with
      | error f' =>
        rw [hlocal] at halike
        obtain rfl : f = f' := halike
        rw [Session.step_error hsilent hflow hlocal]
        exact .crashed hreq (by rw [serve_of_error hrun])
      | ok d' =>
        rw [hlocal] at halike
        exact halike.elim
    | ok d =>
      have hexit := processCommand_exit_iff hrun
      rw [hrun] at halike
      cases hlocal : getAndProcessCommand savefile s.node ⟨false, []⟩ x with
      | error f' =>
        rw [hlocal] at halike
        exact halike.elim
      | ok d' =>
        rw [hlocal] at halike
        obtain ⟨hnode, hres, texts, hterm, htexts⟩ := halike
        have hn : d'.node = (s.node.serve r).1 := by rw [hnode, serve_of_ok hrun]
        rw [Session.step_ok hsilent hflow hlocal, hn, hterm, hres]
        refine .ran hreq (by rw [serve_of_ok hrun]) htexts ?_
        rw [← hexit]
        split_ifs with hq
        · exact Or.inl ⟨rfl, hq⟩
        · exact Or.inr ⟨rfl, hq⟩

theorem Session.step_stopped (h : s.flow ≠ .next) (x : Line) : s.step savefile x = (s, []) :=
  if_pos h

/-- A turn that goes on, or ends, by what its line is. -/
theorem step_ends_iff (hsilent : s.silent = false) (hflow : s.flow = .next) (x : Line) :
    (s.step savefile x).1.flow ≠ .next ↔ EndsLoop s x := by
  cases hturn : s.step savefile x with | mk s' shown' =>
  have hturned : Turned s x (s.step savefile x) := step_turned hsilent hflow x
  rw [hturn] at hturned
  cases hturned with
  | refused hreq =>
    refine iff_of_false (not_not.mpr hflow) fun ⟨r, hr, _⟩ => ?_
    cases hreq.symm.trans hr
  | @ran r ctx texts flow hreq hctx _ hend =>
    have hends : EndsLoop s x ↔ r.1.cmdArrOk = true ∧ Quits (tokenize r.2) := by
      constructor
      · rintro ⟨r', hr', hmem, hq | ⟨f, hf⟩⟩
        · cases hreq.symm.trans hr'
          exact ⟨hmem, hq⟩
        · cases hreq.symm.trans hr'
          cases hctx.symm.trans (serve_error_iff.mpr ⟨hmem, hf⟩)
      · exact fun ⟨hmem, hq⟩ => ⟨r, hreq, hmem, Or.inl hq⟩
    rw [hends]
    rcases hend with ⟨rfl, hq⟩ | ⟨rfl, hq⟩
    · exact iff_of_true (by simp) hq
    · exact iff_of_false (not_not.mpr rfl) hq
  | crashed hreq hf =>
    obtain ⟨hmem, hfault⟩ := serve_error_iff.mp hf
    exact iff_of_true (by simp) ⟨_, hreq, hmem, Or.inr ⟨_, hfault⟩⟩

/-- Only EXIT ends the loop without a fault. -/
theorem step_shutdown_iff (hsilent : s.silent = false) (hflow : s.flow = .next) (x : Line) :
    (s.step savefile x).1.flow = .shutdown ↔
      ∃ r ∈ x.request, r.1.cmdArrOk = true ∧ Quits (tokenize r.2) := by
  cases hturn : s.step savefile x with | mk s' shown' =>
  have hturned : Turned s x (s.step savefile x) := step_turned hsilent hflow x
  rw [hturn] at hturned
  cases hturned with
  | refused hreq =>
    refine iff_of_false (by simp [hflow]) fun ⟨r, hr, _⟩ => ?_
    cases hreq.symm.trans hr
  | @ran r ctx texts flow hreq hctx _ hend =>
    have hone : (∃ r' ∈ x.request, r'.1.cmdArrOk = true ∧ Quits (tokenize r'.2)) ↔
        r.1.cmdArrOk = true ∧ Quits (tokenize r.2) := by simp [hreq]
    rw [hone]
    rcases hend with ⟨rfl, hq⟩ | ⟨rfl, hq⟩
    · exact iff_of_true rfl hq
    · exact iff_of_false (by simp) hq
  | @crashed r f hreq hf =>
    obtain ⟨-, hfault⟩ := serve_error_iff.mp hf
    refine iff_of_false (by simp) fun ⟨r', hr', _, name, htok, hcmd⟩ => ?_
    cases hreq.symm.trans hr'
    rw [htok, FaultsWith, hcmd] at hfault
    exact hfault

theorem step_silent (hsilent : s.silent = false) (x : Line) :
    (s.step savefile x).1.silent = false := by
  by_cases hflow : s.flow = .next
  · cases hturn : s.step savefile x with | mk s' shown' =>
    have hturned : Turned s x (s.step savefile x) := step_turned hsilent hflow x
    rw [hturn] at hturned
    cases hturned with
    | refused => exact hsilent
    | ran => rfl
    | crashed => exact hsilent
  · rw [Session.step_stopped hflow]
    exact hsilent

end Turn

/-! ### Lines that stay within their memory -/

/-- The words are SAVE on its own. -/
def Saves (words : List Str) : Prop := ∃ name, words = [name] ∧ findCommand name = some .save

/-- The running loop gets a line whose request goes out of bounds: it faults, it leaves the heap a
    slot that points to an entry it frees, or it is SAVE and prints an expiry of 20 digits. -/
def Strays (s : Session) (x : Line) : Prop :=
  s.flow = .next ∧ ∃ r ∈ x.request,
    Stuck s.node r ∨ Pins s.node r ∨ Saves (tokenize r.2) ∧ ¬ s.node.db.TextsFit

/-- A request is no longer than its line. -/
theorem request_length {x : Line} {r : ReqEnv × Str} (hr : x.request = some r)
    (hread : ∀ bytes ∈ x.2, bytes.length < maxCmdLen) : r.2.length < maxCmdLen := by
  rw [Line.request] at hr
  split_ifs at hr with hrefused
  cases hr
  cases hx : x.2 with
  | none => exact absurd (Or.inr (Or.inr hx)) hrefused
  | some bytes =>
    exact ((CStr.length_cut_le _).trans (CStr.length_chomp_le bytes)).trans_lt (hread bytes hx)

/-- A command that fills no buffer and frees nothing does not stray. -/
theorem not_strays {s : Session} {x : Line} {name : Str} {args : List Str}
    (h : ∀ r ∈ x.request, tokenize r.2 = name :: args ∧ ∀ q ∈ Query.parse r.2, ¬ q.isDelete)
    (hcmd : findCommand name ∉ [some .help, some .get, some .save]) : ¬ Strays s x := by
  rintro ⟨-, r, hr, ⟨f, hf⟩ | ⟨-, q, hq, hpin⟩ | ⟨⟨word, hsave, hfound⟩, -⟩⟩ <;>
    obtain ⟨htok, hkeeps⟩ := h r hr
  · obtain ⟨-, hfault⟩ := serve_error_iff.mp hf
    rw [htok, FaultsWith] at hfault
    cases hfound : findCommand name with
    | none =>
      rw [hfound] at hfault
      exact hfault
    | some cmd =>
      rw [hfound] at hfault hcmd
      cases cmd with
      | help | get | save => simp at hcmd
      | _ => exact hfault
  · have hno := hkeeps q hq
    cases q with
    | delete k => exact hno rfl
    | _ => exact hpin
  · obtain ⟨rfl, -⟩ : name = word ∧ args = [] := by simpa [htok] using hsave
    exact hcmd (by simp [hfound])

/-- A line that does not stray keeps the store safe. -/
theorem Db.Safe.turn {savefile : Str} {s : Session} {x : Line} (h : s.node.db.Safe)
    (hsilent : s.silent = false) (hread : ∀ bytes ∈ x.2, bytes.length < maxCmdLen)
    (hx : ¬ Strays s x) : (s.step savefile x).1.node.db.Safe := by
  by_cases hflow : s.flow = .next
  · cases hturn : s.step savefile x with | mk s' shown' =>
    have hturned : Turned s x (s.step savefile x) := step_turned hsilent hflow x
    rw [hturn] at hturned
    cases hturned with
    | refused => exact h
    | ran hreq =>
      exact h.serve (request_length hreq hread) fun hpin =>
        hx ⟨hflow, _, hreq, Or.inr (Or.inl hpin)⟩
    | crashed => exact h
  · rw [Session.step_stopped hflow]
    exact h

/-! ### A session -/

section Run
variable {savefile : Str} {n : Node}

theorem run_silent (xs : List Line) :
    (Mealy.exec (Session.step savefile) (.start n) xs).silent = false :=
  Mealy.exec_invariant (I := fun s : Session => s.silent = false)
    (fun _ x h => step_silent h x) rfl xs

/-- A session has met no line that ends it, or is where the first such line has left it. -/
theorem run_ends (xs : List Line) :
    let run := Mealy.exec (Session.step savefile) (.start n)
    ((run xs).flow = .next ∧ Mealy.Never (Session.step savefile) EndsLoop (.start n) xs) ∨
    ∃ pre x post, xs = pre ++ x :: post ∧ (run pre).flow = .next ∧
      Mealy.Never (Session.step savefile) EndsLoop (.start n) pre ∧ EndsLoop (run pre) x ∧
      run xs = ((run pre).step savefile x).1 := by
  have h := @Mealy.exec_first_bad _ _ _ (Session.step savefile)
    (fun s : Session => s.silent = false) (fun s : Session => s.flow ≠ .next) EndsLoop
    (fun _ x h => step_silent h x) (fun s x h => by rw [Session.step_stopped h])
    (fun s x hs hgo => step_ends_iff hs (not_not.mp hgo) x) (.start n) rfl
    (by simp [Session.start]) xs
  simpa only [not_not] using h

/-- A session without a line that strays has a safe store. -/
theorem run_safe {xs : List Line} (h : Started n.db)
    (hread : ∀ x ∈ xs, ∀ bytes ∈ x.2, bytes.length < maxCmdLen)
    (hstay : Mealy.Never (Session.step savefile) Strays (.start n) xs) :
    (Mealy.exec (Session.step savefile) (.start n) xs).node.db.Safe := by
  induction xs using List.reverseRecOn with
  | nil => exact h.safe
  | append_singleton xs x ih =>
    rw [Mealy.never_concat] at hstay
    have hsafe := ih (fun y hy => hread y (by simp [hy])) hstay.1
    have hsilent := @run_silent savefile n xs
    rw [Mealy.exec_append]
    generalize Mealy.exec (Session.step savefile) (.start n) xs = s at hsafe hsilent hstay ⊢
    exact hsafe.turn hsilent (hread x (by simp)) hstay.2

/-- CORRECT: a local session that starts from an empty store or a file, and in which no line strays,
    keeps a safe store, and its loop is over exactly when one of its lines was EXIT on its own, with
    memory for its words. SHUTDOWN, a refused line and the end of the input leave it running. -/
theorem session_over_iff {xs : List Line} (h : Started n.db)
    (hread : ∀ x ∈ xs, ∀ bytes ∈ x.2, bytes.length < maxCmdLen)
    (hstay : Mealy.Never (Session.step savefile) Strays (.start n) xs) :
    (Mealy.exec (Session.step savefile) (.start n) xs).node.db.Safe ∧
      ((Mealy.exec (Session.step savefile) (.start n) xs).flow = .shutdown ↔
        ∃ x ∈ xs, ∃ r ∈ x.request, r.1.cmdArrOk = true ∧ Quits (tokenize r.2)) := by
  refine ⟨run_safe h hread hstay, ?_⟩
  rcases @run_ends savefile n xs with ⟨hgo, hnever⟩ | ⟨pre, x, post, hxs, hgo, -, hends, hend⟩
  · refine iff_of_false (by simp [hgo]) ?_
    rintro ⟨x, hx, r, hr, hmem, hquits⟩
    obtain ⟨pre, post, rfl⟩ := List.append_of_mem hx
    exact hnever pre x (by simp) ⟨r, hr, hmem, Or.inl hquits⟩
  · have hx : ¬ Strays (Mealy.exec (Session.step savefile) (.start n) pre) x :=
      hstay pre x (by simp [hxs])
    obtain ⟨r, hr, hmem, hquits | ⟨f, hf⟩⟩ := hends
    · have hover := (@step_shutdown_iff savefile _ (run_silent pre) hgo x).mpr ⟨r, hr, hmem, hquits⟩
      exact iff_of_true (hend ▸ hover) ⟨x, by simp [hxs], r, hr, hmem, hquits⟩
    · exact absurd ⟨hgo, r, hr, Or.inl ⟨f, serve_error_iff.mpr ⟨hmem, hf⟩⟩⟩ hx

/-- SHUTDOWN leaves the loop running, EXIT ends it. -/
theorem session_over_iff_exit :
    (Mealy.exec (Session.step (str "data.safe")) (.start ⟨htInit, none⟩)
      [(envAt 100, some (str "SET a 1\n")), (envAt 100, some (str "SHUTDOWN\n")),
        (envAt 100, some (str "EXIT\n"))]).flow = .shutdown := by
  have hset := fun s => @not_strays s (envAt 100, some (str "SET a 1\n")) (str "SET")
    [str "a", str "1"] (by decide +kernel) (by decide)
  have hshutdown := fun s => @not_strays s (envAt 100, some (str "SHUTDOWN\n")) (str "SHUTDOWN")
    [] (by decide +kernel) (by decide)
  have hexit := fun s => @not_strays s (envAt 100, some (str "EXIT\n")) (str "EXIT") []
    (by decide +kernel) (by decide)
  have hstay : Mealy.Never (Session.step (str "data.safe")) Strays (.start ⟨htInit, none⟩)
      [(envAt 100, some (str "SET a 1\n")), (envAt 100, some (str "SHUTDOWN\n")),
        (envAt 100, some (str "EXIT\n"))] :=
    Mealy.never_cons.mpr ⟨hset _, Mealy.never_cons.mpr ⟨hshutdown _,
      Mealy.never_cons.mpr ⟨hexit _, Mealy.never_nil⟩⟩⟩
  exact (session_over_iff .empty (by decide) hstay).2.mpr
    ⟨(envAt 100, some (str "EXIT\n")), by simp, _, rfl, rfl, str "EXIT", by decide +kernel,
      by decide⟩

end Run

end SahDB
