import SahDB.Command

/-! Codes and statuses.

    The loop of the server ends a connection, or itself, by the status of a request. Every code of
    the store functions and of saving is one of `storeCodes`, and none of these ends anything. -/

namespace SahDB

/-- The codes of the store functions and of saving. -/
def storeCodes : List Err :=
  [0, dbErrNomem, dbErrKeyNotexist, dbErrKeyExists, dbErrFileInaccessible, errFull]

/-- The status of a request that ends neither its connection nor the server. -/
def Stays (status : Err) : Prop := status ≠ dbErrExit ∧ status ≠ dbErrShutdown

theorem stays_of_mem_storeCodes {code : Err} (h : code ∈ storeCodes) : Stays code := by
  have hall : ∀ c ∈ storeCodes, c ≠ dbErrExit ∧ c ≠ dbErrShutdown := by decide
  exact hall code h

/-! ### Codes -/

section Codes
variable (s : Db) (k : Str) (now : ℤ)

theorem hashRead_storeCode (missing : Str) (found : Entry → Str) :
    (hashRead missing found s k now).2.code ∈ storeCodes := by
  unfold hashRead
  split
  · simp [storeCodes]
  · dsimp only
    split_ifs <;> simp [storeCodes]

theorem hashGet_storeCode {r : Db × Reply} (h : hashGet s k now = .ok r) :
    r.2.code ∈ storeCodes := by
  rw [hashGet] at h
  split_ifs at h
  cases h
  exact hashRead_storeCode s k now _ _

theorem addKvInArr_storeCode (bound : UInt64) (idx : Fin mod) (e : Addr) :
    (addKvInArr bound s idx e).1 ∈ storeCodes := by
  unfold addKvInArr
  split_ifs
  · split <;> simp [storeCodes]
  · split
    · simp [storeCodes]
    · dsimp only
      split_ifs <;> simp [storeCodes]

theorem hashInsert_storeCode (v : Str) (ok : Bool) : (hashInsert s k v ok).2.code ∈ storeCodes := by
  unfold hashInsert
  dsimp only
  split_ifs
  · exact addKvInArr_storeCode _ _ _ _
  · simp [storeCodes]
  · exact addKvInArr_storeCode _ _ _ _
  · simp [storeCodes]

theorem hashDelete_storeCode : (hashDelete s k).2.code ∈ storeCodes := by
  unfold hashDelete
  dsimp only
  split <;> simp [storeCodes]

theorem hashUpdateExpiry_storeCode (duration now' : ℤ) (ok : Bool) :
    (hashUpdateExpiry s k duration now now' ok).2.code ∈ storeCodes := by
  unfold hashUpdateExpiry
  split
  · simp [storeCodes]
  · dsimp only
    split_ifs
    · simp [storeCodes]
    · unfold renewExpiry heapInsert
      dsimp only
      split_ifs <;> simp [storeCodes, dbErrOk]

end Codes

/-! ### Statuses -/

section Status
variable {n : Node} {ctx : CmdCtx}

theorem fillCmdCtx_stays (h : Stays ctx.status) {res : Err} (hres : Stays res) (resp : Str) :
    Stays (fillCmdCtx ctx res resp).status := by
  rw [fillCmdCtx]
  split_ifs
  · exact h
  · exact hres

theorem refuse_stays (h : Stays ctx.status) (resp : Str) : Stays (refuse n ctx resp).ctx.status :=
  fillCmdCtx_stays h (by unfold Stays; decide) resp

theorem reply_stays (h : Stays ctx.status) {r : Db × Reply} (hr : r.2.code ∈ storeCodes) :
    Stays (reply n ctx r).ctx.status :=
  fillCmdCtx_stays h (stays_of_mem_storeCodes hr) r.2.text

end Status

end SahDB
