import SahDB.Network

/-! The command line client (`process_user_req` in `cli.c`).

    A command is sent in at most three attempts, each with the whole buffer. An attempt that
    delivers a part is repeated from the start, so the server gets the part and then the whole. -/

namespace SahDB

/-! ### The client -/

/-- `get_user_input` from what `read` returns, `none` if that is nothing: the string in the zeroed
    buffer. -/
def getUserInput : Option Str → Str
  | none => []
  | some bytes => CStr.cut (CStr.chomp bytes)

/-- The send loop with `retries` attempts left, `k` of them made: `failure`, and what the attempts
    returned. -/
def sendLoop (send : ℕ → ℤ) (sz : ℤ) : ℕ → ℕ → Bool × List ℤ
  | 0, _ => (true, [])
  | retries + 1, k =>
    let res := send k
    if res = 0 then (true, [res])
    else if res = sz then (false, [res])
    else
      let (failure, more) := sendLoop send sz retries (k + 1)
      (failure, res :: more)

/-- `retries` -/
def cliRetries : ℕ := 3

/-- `process_user_req`: its code and what the attempts to send returned. -/
def processUserReq (input : Option Str) (send : ℕ → ℤ) (recvOk : Bool) : Err × List ℤ :=
  let cmd := getUserInput input
  if cmd = [] ∨ cmd.head? = some CStr.newline then (dbErrOk, [])
  else
    let (failure, sents) := sendLoop send cmd.length cliRetries 0
    if failure then (dbErrGenericFail, sents)
    else if recvOk = false then (dbErrGenericFail, sents)
    else (dbErrOk, sents)

/-! ### What the server gets -/

/-- The bytes that attempts with these results have delivered, one after the other. -/
def received (cmd : Str) (sents : List ℤ) : Str := sents.flatMap fun res => cmd.take res.toNat

/-- `send` returns -1, 0 or a number of bytes it was given. -/
def SendsOf (sz : ℕ) (send : ℕ → ℤ) : Prop := ∀ k, send k = -1 ∨ 0 ≤ send k ∧ send k ≤ sz

/-- The attempt `m` after `k`, within the next `retries`, is the first that ends the loop, and it
    delivers the whole command. -/
def FirstWhole (send : ℕ → ℤ) (sz : ℤ) (retries k m : ℕ) : Prop :=
  m < retries ∧ send (k + m) = sz ∧ ∀ i < m, send (k + i) ≠ 0 ∧ send (k + i) ≠ sz

section Loop
variable {send : ℕ → ℤ} {sz : ℤ} {retries k m : ℕ}

/-- After an attempt that does not end the loop the count starts at the next one. -/
theorem firstWhole_succ_iff : FirstWhole send sz (retries + 1) k (m + 1) ↔
    (send k ≠ 0 ∧ send k ≠ sz) ∧ FirstWhole send sz retries (k + 1) m := by
  have hshift : ∀ i, send (k + (i + 1)) = send (k + 1 + i) := fun i => by
    rw [Nat.add_assoc, Nat.add_comm 1 i]
  simp only [FirstWhole, Nat.succ_lt_succ_iff, hshift, Nat.forall_lt_succ_left, Nat.add_zero]
  tauto

/-- A loop that does not fail ends with the first whole attempt. -/
theorem firstWhole_of_sendLoop (h : (sendLoop send sz retries k).1 = false) :
    ∃ m, FirstWhole send sz retries k m := by
  induction retries generalizing k with
  | zero => cases h
  | succ retries ih =>
    rw [sendLoop] at h
    split_ifs at h with h0 hsz
    · exact ⟨0, Nat.succ_pos _, hsz, fun i hi => absurd hi (Nat.not_lt_zero i)⟩
    · obtain ⟨m, hm⟩ := ih h
      exact ⟨m + 1, firstWhole_succ_iff.mpr ⟨⟨h0, hsz⟩, hm⟩⟩

/-- And what its attempts returned are the results up to that one. -/
theorem sendLoop_of_firstWhole (hne : sz ≠ 0) (h : FirstWhole send sz retries k m) :
    sendLoop send sz retries k = (false, (List.range m).map (fun i => send (k + i)) ++ [sz]) := by
  induction m generalizing k retries with
  | zero =>
    obtain ⟨hm, hwhole, -⟩ := h
    obtain ⟨retries, rfl⟩ := Nat.exists_eq_succ_of_ne_zero (Nat.ne_of_gt hm)
    rw [Nat.add_zero] at hwhole
    rw [sendLoop, hwhole, if_neg hne, if_pos rfl]
    rfl
  | succ m ih =>
    obtain ⟨retries, rfl⟩ := Nat.exists_eq_succ_of_ne_zero (Nat.ne_of_gt (Nat.zero_lt_of_lt h.1))
    obtain ⟨⟨h0, hsz⟩, hrest⟩ := firstWhole_succ_iff.mp h
    rw [sendLoop]
    dsimp only
    rw [if_neg h0, if_neg hsz, ih hrest, List.range_succ_eq_map, List.map_cons, List.map_map]
    simp [Function.comp_def, Nat.add_assoc, Nat.add_comm 1]

theorem FirstWhole.unique {m' : ℕ} (h : FirstWhole send sz retries k m)
    (h' : FirstWhole send sz retries k m') : m = m' := by
  obtain ⟨-, hwhole, hbefore⟩ := h
  obtain ⟨-, hwhole', hbefore'⟩ := h'
  rcases lt_trichotomy m m' with hlt | rfl | hlt
  · exact absurd hwhole (hbefore' m hlt).2
  · rfl
  · exact absurd hwhole' (hbefore m' hlt).2

end Loop

section Received
variable {cmd : Str} {send : ℕ → ℤ}

theorem received_append (a b : List ℤ) :
    received cmd (a ++ b) = received cmd a ++ received cmd b := List.flatMap_append

theorem received_whole : received cmd [(cmd.length : ℤ)] = cmd := by
  rw [received, List.flatMap_singleton, Int.toNat_natCast, List.take_length]

/-- Only failed and empty attempts deliver nothing. -/
theorem received_eq_nil_iff (hne : cmd ≠ []) {sents : List ℤ} :
    received cmd sents = [] ↔ ∀ res ∈ sents, res ≤ 0 := by
  rw [received, List.flatMap_eq_nil_iff]
  refine forall₂_congr fun res _ => ?_
  rw [List.take_eq_nil_iff, or_iff_left hne, Int.toNat_eq_zero]

/-- A part of the command is delivered before the attempt that delivers all of it. -/
def PartialBefore (send : ℕ → ℤ) (sz : ℤ) : Prop :=
  ∃ m, FirstWhole send sz cliRetries 0 m ∧ ∃ i < m, 0 < send i ∧ send i < sz

/-- CORRECT: whenever the loop ends without failure, the server has got the command and nothing
    else, exactly if no part of it went out before the whole. -/
theorem retry_exact_iff (hne : cmd ≠ []) (hsend : SendsOf cmd.length send) :
    ((sendLoop send cmd.length cliRetries 0).1 = false →
        received cmd (sendLoop send cmd.length cliRetries 0).2 = cmd) ↔
      ¬ PartialBefore send cmd.length := by
  have hsz : (cmd.length : ℤ) ≠ 0 := by
    rw [ne_eq, Nat.cast_eq_zero, List.length_eq_zero_iff]
    exact hne
  -- after a loop that ended with the attempt `m`
  have hat : ∀ {m}, FirstWhole send cmd.length cliRetries 0 m →
      (received cmd (sendLoop send cmd.length cliRetries 0).2 = cmd ↔
        ∀ i < m, ¬ (0 < send i ∧ send i < cmd.length)) := by
    intro m hm
    have hdone : received cmd (sendLoop send cmd.length cliRetries 0).2 =
        received cmd ((List.range m).map fun i => send (0 + i)) ++ cmd := by
      rw [sendLoop_of_firstWhole hsz hm, received_append, received_whole]
    rw [hdone, List.append_left_eq_self, received_eq_nil_iff hne]
    simp only [List.forall_mem_map, List.mem_range, Nat.zero_add]
    refine forall₂_congr fun i hi => ?_
    have hbefore := (hm.2.2 i hi).2
    rw [Nat.zero_add] at hbefore
    rcases hsend i with h | h <;> omega
  constructor
  · rintro h ⟨m, hm, i, hi, hpart⟩
    have hok : (sendLoop send cmd.length cliRetries 0).1 = false := by
      rw [sendLoop_of_firstWhole hsz hm]
    exact (hat hm).mp (h hok) i hi hpart
  · intro h hok
    obtain ⟨m, hm⟩ := firstWhole_of_sendLoop hok
    exact (hat hm).mpr fun i hi hpart => h ⟨m, hm, i, hi, hpart⟩

/-- The client says OK for a command only if its loop has not failed. -/
theorem processUserReq_ok {input : Option Str} {recvOk : Bool} {sents : List ℤ}
    (hcmd : getUserInput input ≠ []) (hline : (getUserInput input).head? ≠ some CStr.newline)
    (h : processUserReq input send recvOk = (dbErrOk, sents)) :
    sendLoop send (getUserInput input).length cliRetries 0 = (false, sents) := by
  rw [processUserReq] at h
  dsimp only at h
  rw [if_neg (not_or.mpr ⟨hcmd, hline⟩)] at h
  rcases hloop : sendLoop send (getUserInput input).length cliRetries 0 with ⟨_ | _, sents'⟩ <;>
    rw [hloop] at h
  · cases recvOk <;> cases h
    rfl
  · cases h

end Received

/-- A part of SET k v goes out, and then all of it. -/
theorem retry_repeats_part :
    let send : ℕ → ℤ := fun k => if k = 0 then 4 else 7
    SendsOf 7 send ∧ (sendLoop send (str "SET k v").length cliRetries 0).1 = false ∧
      received (str "SET k v") (sendLoop send (str "SET k v").length cliRetries 0).2 =
        str "SET SET k v" := by
  refine ⟨fun k => ?_, rfl, rfl⟩
  dsimp only
  split_ifs <;> decide

/-- An error and then the whole command. -/
theorem retry_exact_iff_error :
    received (str "SET k v")
      (sendLoop (fun k => if k = 0 then -1 else 7) (str "SET k v").length cliRetries 0).2 =
        str "SET k v" := by
  refine (retry_exact_iff (by decide) fun k => ?_).mpr ?_ rfl
  · split_ifs <;> decide
  · rintro ⟨m, -, i, -, hpos, hlt⟩
    dsimp only at hpos hlt
    split_ifs at hpos hlt
    · cases hpos
    · exact absurd hlt (by decide)

end SahDB
