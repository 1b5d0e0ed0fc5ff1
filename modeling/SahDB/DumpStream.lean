import SahDB.Replica

/-! The stream of the save file to a replica.

    `fread` fills a buffer of `MAX_RESP_LEN` bytes, and `socket_send_data` formats it into another
    one of that size, which must also hold the terminator: a full block loses its last byte. So the
    stream is whole only if no block is full. -/

namespace SahDB

/-- Every send of the run delivered its whole buffer. -/
def Delivered (sents : List Sent) : Prop := ∀ s ∈ sents, s.ret = s.buffer.length

/-- What the run passed to `send`. -/
def payload (sents : List Sent) : Str := sents.flatMap Sent.buffer

section Loop
variable {send : ℕ → Str → ℤ} {k : ℕ} {blocks : List Str}

/-- The buffer that leaves for one block. -/
theorem socketSendData_buffer (send : Str → ℤ) {block : Str} (h0 : (0 : UInt8) ∉ block) :
    (socketSendData send (CStr.cut block)).2 =
      ⟨block.take (maxRespLen - 1), send (block.take (maxRespLen - 1))⟩ := by
  have htake : (0 : UInt8) ∉ block.take (maxRespLen - 1) := fun h => h0 (List.mem_of_mem_take h)
  rw [socketSendData, CStr.cut_of_notMem h0, CStr.cut_of_notMem htake]

/-- A send that delivers a buffer that is not empty counts as done. -/
theorem socketSendData_ok {send : Str → ℤ} {text : Str}
    (hret : (socketSendData send text).2.ret = (socketSendData send text).2.buffer.length)
    (hne : (socketSendData send text).2.buffer ≠ []) : (socketSendData send text).1 = dbErrOk := by
  have hpos := List.length_pos_of_ne_nil hne
  simp only [socketSendData] at hret hpos ⊢
  rw [if_neg (by omega)]

theorem sendBlocks_cons (block : Str) :
    sendBlocks send k (block :: blocks) =
      let done := socketSendData (send k) (CStr.cut block)
      if done.1 ≠ dbErrOk then (dbErrGenericFail, [done.2])
      else
        let rest := sendBlocks send (k + 1) blocks
        (rest.1, done.2 :: rest.2) := rfl

/-- If all sends deliver, the loop runs to the end and passes on each block but for the byte that
    does not fit. -/
theorem sendBlocks_payload (hblocks : ∀ b ∈ blocks, b ≠ [] ∧ (0 : UInt8) ∉ b)
    (hsend : Delivered (sendBlocks send k blocks).2) :
    (sendBlocks send k blocks).1 = dbErrOk ∧
      payload (sendBlocks send k blocks).2 = (blocks.map (List.take (maxRespLen - 1))).flatten := by
  induction blocks generalizing k with
  | nil => exact ⟨rfl, rfl⟩
  | cons block blocks ih =>
    obtain ⟨hne, h0⟩ := hblocks block (by simp)
    have hbuf := socketSendData_buffer (send k) h0
    rw [sendBlocks_cons] at hsend ⊢
    have hret : (socketSendData (send k) (CStr.cut block)).2.ret =
        (socketSendData (send k) (CStr.cut block)).2.buffer.length := by
      refine hsend _ ?_
      dsimp only
      split_ifs <;> simp
    have hok : (socketSendData (send k) (CStr.cut block)).1 = dbErrOk :=
      socketSendData_ok hret (by rw [hbuf]; simp [hne, maxRespLen])
    simp only [hok, ne_eq, not_true_eq_false, if_false] at hsend ⊢
    obtain ⟨hres, hpay⟩ := ih (fun b hb => hblocks b (by simp [hb]))
      fun s hs => hsend s (List.mem_cons_of_mem _ hs)
    refine ⟨hres, ?_⟩
    rw [payload, List.flatMap_cons, hbuf, List.map_cons, List.flatten_cons]
    exact congrArg _ hpay

/-- A peer that takes everything. -/
theorem delivered_of_taken (h : ∀ k b, send k b = b.length) (k : ℕ) (blocks : List Str) :
    Delivered (sendBlocks send k blocks).2 := by
  induction blocks generalizing k with
  | nil => exact fun s hs => by cases hs
  | cons block blocks ih =>
    intro s hs
    rw [sendBlocks_cons] at hs
    dsimp only at hs
    split_ifs at hs
    · obtain rfl := List.mem_singleton.mp hs
      exact h _ _
    · rcases List.mem_cons.mp hs with rfl | hs
      · exact h _ _
      · exact ih _ s hs

end Loop

section Stream
variable {send : ℕ → Str → ℤ} {k : ℕ} {file : Str} {start : ℤ}

theorem sendSaveFileToRepl_some (h : 0 ≤ start) :
    sendSaveFileToRepl send k (some file) start =
      sendBlocks send k (CStr.blocks maxRespLen (file.drop start.toNat)) := by
  rw [sendSaveFileToRepl, if_neg (not_lt.mpr h)]

/-- What a stream carries: the blocks of the file, each without the byte that does not fit. -/
theorem stream_payload (h0 : (0 : UInt8) ∉ file) (h : 0 ≤ start)
    (hsend : Delivered (sendSaveFileToRepl send k (some file) start).2) :
    (sendSaveFileToRepl send k (some file) start).1 = dbErrOk ∧
      payload (sendSaveFileToRepl send k (some file) start).2 =
        ((CStr.blocks maxRespLen (file.drop start.toNat)).map
          (List.take (maxRespLen - 1))).flatten := by
  rw [sendSaveFileToRepl_some h] at hsend ⊢
  refine sendBlocks_payload (fun b hb => ?_) hsend
  obtain ⟨hne, hmem⟩ := CStr.mem_blocks hb
  exact ⟨hne, fun hz => h0 (List.mem_of_mem_drop (hmem 0 hz))⟩

/-- CORRECT: a stream whose sends all deliver carries the bytes of the file from `start` on, and
    from 0 as many as `get_file_size` has given, exactly if they are fewer than `MAX_RESP_LEN`. -/
theorem stream_whole_iff (h0 : (0 : UInt8) ∉ file) (h : 0 ≤ start) (hend : start ≤ file.length)
    (hsend : Delivered (sendSaveFileToRepl send k (some file) start).2) :
    (payload (sendSaveFileToRepl send k (some file) start).2 = file.drop start.toNat ∧
        (start = 0 → getFileSize (some file) =
          .ok (payload (sendSaveFileToRepl send k (some file) start).2).length)) ↔
      file.length - start < maxRespLen := by
  have hlen : (file.drop start.toNat).length < maxRespLen ↔ file.length - start < maxRespLen := by
    rw [List.length_drop]
    omega
  have hwhole := CStr.flatten_take_blocks_eq_iff (n := maxRespLen) (s := file.drop start.toNat)
    (by decide)
  rw [(stream_payload h0 h hsend).2, ← hlen, ← hwhole]
  refine and_iff_left_of_imp fun heq hstart => ?_
  rw [heq, hstart]
  rfl

/-- A full transfer: the size of the file is announced, then the file is streamed from 0. -/
theorem share_sends {sockfd : ℤ} (hsock : 0 < sockfd) {ack : ReadOutcome} {uuid replUuid : Str}
    (hack : replicaHandshakeAck ack replUuid = .ok dbErrOk) (hne : file ≠ []) :
    shareDataWithReplica (some sockfd) uuid replUuid send ack (some file) true =
      .ok ((sendSaveFileToRepl send 1 (some file) 0).1,
        (socketSendData (send 0) (announcement uuid file.length)).2 ::
          (sendSaveFileToRepl send 1 (some file) 0).2) := by
  have hpos := List.length_pos_of_ne_nil hne
  simp only [shareDataWithReplica, if_neg (show ¬ (sockfd < 0 ∨ sockfd = 0) by omega), getFileSize,
    bind, Except.bind, hack, if_neg (show ¬ ((file.length : ℤ) < 1) by omega)]
  rfl

/-- The replica gets the file behind the announcement exactly if it fits one block. -/
theorem share_whole_iff {sockfd : ℤ} (hsock : 0 < sockfd) {ack : ReadOutcome} {uuid replUuid : Str}
    (hack : replicaHandshakeAck ack replUuid = .ok dbErrOk) (h0 : (0 : UInt8) ∉ file)
    (hne : file ≠ []) {res : Err} {sents : List Sent}
    (hrun : shareDataWithReplica (some sockfd) uuid replUuid send ack (some file) true =
      .ok (res, sents)) (hsend : Delivered sents) :
    payload sents.tail = file ↔ file.length < maxRespLen := by
  rw [share_sends hsock hack hne] at hrun
  cases hrun
  have hsend' : Delivered (sendSaveFileToRepl send 1 (some file) 0).2 :=
    fun s hs => hsend s (List.mem_cons_of_mem _ hs)
  rw [List.tail_cons, (stream_payload h0 le_rfl hsend').2, Int.toNat_zero, List.drop_zero]
  exact CStr.flatten_take_blocks_eq_iff (by decide)

end Stream

/-- A file of one full block. -/
def fullBlock : Str := List.replicate maxRespLen 65

theorem nul_notMem_fullBlock : (0 : UInt8) ∉ fullBlock := by simp [fullBlock, List.mem_replicate]

/-- It arrives without its last byte. -/
theorem full_block_loses_byte :
    ¬ ∀ (file : Str) (start : ℤ) (send : ℕ → Str → ℤ) (k : ℕ), (0 : UInt8) ∉ file →
      0 ≤ start → start ≤ file.length →
      Delivered (sendSaveFileToRepl send k (some file) start).2 →
        payload (sendSaveFileToRepl send k (some file) start).2 = file.drop start.toNat := by
  intro h
  have hsend : Delivered (sendSaveFileToRepl (fun _ b => b.length) 1 (some fullBlock) 0).2 := by
    rw [sendSaveFileToRepl_some le_rfl]
    exact delivered_of_taken (fun _ _ => rfl) _ _
  have hwhole := h fullBlock 0 _ 1 nul_notMem_fullBlock le_rfl (Int.natCast_nonneg _) hsend
  rw [(stream_payload nul_notMem_fullBlock le_rfl hsend).2, Int.toNat_zero, List.drop_zero,
    CStr.flatten_take_blocks_eq_iff (by decide), fullBlock, List.length_replicate] at hwhole
  exact lt_irrefl _ hwhole

/-- The file of one record is streamed whole. -/
theorem stream_whole_iff_short :
    let run := sendSaveFileToRepl (fun _ b => b.length) 1 (some (str "SahDB001\n$\nk!v!-1\n$\n")) 0
    payload run.2 = str "SahDB001\n$\nk!v!-1\n$\n" := by
  refine ((stream_whole_iff (by decide) le_rfl (by decide) ?_).mpr (by decide)).1
  rw [sendSaveFileToRepl_some le_rfl]
  exact delivered_of_taken (fun _ _ => rfl) _ _

end SahDB
