import TxFS.Lib.ByteStream
import TxFS.Wire.Replies

/-!
# Reading a File to its End

`on_read` passes a read on to `tr_file_read` and the handler sends what is in the buffer and
how many bytes that is. A read of no bytes is recoded: the text "Zero\n" is put into the
buffer and its length is returned, so that the data message is never empty.

The buffer has one byte more than was asked for, so the text only fits if the client asked
for five bytes or more.
-/

namespace TxFS

open ByteStream

universe u

/-- An open file as far as reads go, and `tr_file_read` on it: the bytes it puts into the
    buffer, whose number it returns. The fields state what YAFFS does. -/
structure ReadFile (σ : Type u) where
  content : σ → Msg
  position : σ → Nat
  trFileRead : σ → Nat → Msg × σ
  data_read : ∀ f n, (trFileRead f n).1 = ((content f).drop (position f)).take n
  content_read : ∀ f n, content (trFileRead f n).2 = content f
  position_read : ∀ f n, position (trFileRead f n).2 = position f + (trFileRead f n).1.length

/-- A file in memory. -/
def ReadFile.inMemory : ReadFile (Msg × Nat) where
  content := Prod.fst
  position := Prod.snd
  trFileRead f n := ((f.1.drop f.2).take n, f.1, f.2 + ((f.1.drop f.2).take n).length)
  data_read _ _ := rfl
  content_read _ _ := rfl
  position_read _ _ := rfl

namespace ReadFile

variable {σ : Type u}

/-- What is put in place of an empty read. -/
def zeroText : Msg := "Zero\n".toList

/-- `on_read` with a buffer of `nbytes + 1` bytes: the value, the buffer and the file. A
    `strcpy` past the end of the buffer has no defined effect. -/
def onRead (fs : ReadFile σ) (f : σ) (nbytes : Nat) : Option (Int × Msg × σ) :=
  let data := (fs.trFileRead f nbytes).1
  let f := (fs.trFileRead f nbytes).2
  let readBuf := data ++ List.replicate (nbytes - data.length) '\x00'
  if data.length = 0 then
    if zeroText.length < nbytes + 1 then some (zeroText.length, Msg.strcpy readBuf zeroText, f)
    else none
  else some (data.length, readBuf, f)

/-- The branch of a `read` with the operation: the handler sends the first `bytes_read` bytes
    of the buffer. -/
def serveRead (fs : ReadFile σ) (x : Handler × σ) (r : List Msg) : Option (Handler × σ) := do
  let (bytesRead, readBuf, f) ← fs.onRead x.2 (Msg.atoi (r.getD 3 [])).toNat
  some (x.1.handle r ⟨bytesRead, readBuf.take bytesRead.toNat, []⟩, f)

/-- The reads of a client, one after the other. -/
def serveReads (fs : ReadFile σ) (x : Handler × σ) (rs : List (List Msg)) :
    Option (Handler × σ) :=
  rs.foldlM fs.serveRead x

/-- A `read` as the client sends it. -/
def request (fd buf : Msg) (nbytes : Nat) : List Msg :=
  [Command.read.name.toList, fd, buf, Msg.ofInt nbytes]

/-- The two messages of the reply to a `read`: the bytes and the number the client makes of
    the count. -/
def messages (reply : Reply) : Msg × Int := (reply.data, Msg.atoi (Msg.text reply.str))

/-- What is left of the file. -/
def remaining (fs : ReadFile σ) (f : σ) : Msg := (fs.content f).drop (fs.position f)

/-- The data that is sent for a slice of the file. -/
def recoded (slice : Msg) : Msg := if slice = [] then zeroText else slice

/-- The text for an empty read fits into the buffer. -/
def HasRoom (nbytes : Nat) (slice : Msg) : Prop := slice = [] → zeroText.length ≤ nbytes

instance (nbytes : Nat) (slice : Msg) : Decidable (HasRoom nbytes slice) :=
  inferInstanceAs (Decidable (_ → _))

/-- **Reads are faithful**: the replies are the slices of what is left of the file, with their
    lengths. -/
def Faithful (fs : ReadFile σ) (h : Handler) (f : σ) (fd buf : Msg) (ns : List Nat) : Prop :=
  ∃ h' f' sent, fs.serveReads (h, f) (ns.map (request fd buf)) = some (h', f') ∧
    h'.replies = h.replies ++ sent ∧
    sent.map messages = (slices (fs.remaining f) ns).map fun s => (s, (s.length : Int))

variable {fs : ReadFile σ} {f f' : σ} {h h' : Handler} {fd buf : Msg} {n : Nat} {ns : List Nat}

/-! ## One read -/

theorem remaining_trFileRead : fs.remaining (fs.trFileRead f n).2 = (fs.remaining f).drop n := by
  have hlen : (fs.trFileRead f n).1.length = min n (fs.remaining f).length := by
    rw [fs.data_read, List.length_take]
    rfl
  rw [remaining, fs.content_read, fs.position_read, hlen, ← List.drop_drop]
  show (fs.remaining f).drop _ = _
  rcases Nat.le_total n (fs.remaining f).length with hle | hle
  · rw [Nat.min_eq_left hle]
  · rw [Nat.min_eq_right hle, List.drop_length, List.drop_of_length_le hle]

/-- **One `on_read`**: the next slice, recoded if it is empty. -/
theorem onRead_eq (hroom : HasRoom n ((fs.remaining f).take n)) :
    ∃ readBuf, fs.onRead f n = some (((recoded ((fs.remaining f).take n)).length : Int), readBuf,
        (fs.trFileRead f n).2) ∧
      readBuf.take (recoded ((fs.remaining f).take n)).length =
        recoded ((fs.remaining f).take n) := by
  have hdata : (fs.trFileRead f n).1 = (fs.remaining f).take n := fs.data_read f n
  rw [← hdata] at hroom ⊢
  unfold onRead recoded
  dsimp only
  by_cases hnil : (fs.trFileRead f n).1 = []
  · have hfits : zeroText.length < n + 1 := Nat.lt_succ_of_le (hroom hnil)
    rw [if_pos (List.length_eq_zero_iff.mpr hnil), if_pos hfits, if_pos hnil]
    exact ⟨_, rfl, List.take_left⟩
  · rw [if_neg fun hzero => hnil (List.length_eq_zero_iff.mp hzero), if_neg hnil]
    exact ⟨_, rfl, List.take_left⟩

/-- Without room the effect of `on_read` is not defined. -/
theorem onRead_room {r : Int × Msg × σ} (h : fs.onRead f n = some r) :
    HasRoom n ((fs.remaining f).take n) := by
  intro hnil
  have hdata : (fs.trFileRead f n).1 = (fs.remaining f).take n := fs.data_read f n
  rw [← hdata] at hnil
  unfold onRead at h
  dsimp only at h
  rw [if_pos (List.length_eq_zero_iff.mpr hnil)] at h
  split at h
  · omega
  · cases h

/-- The two messages of a reply. -/
theorem handle_read {r : List Msg} {res : OpResult} (hphase : h.phase = .command)
    (hcmd : Handler.commandOf r = some .read) (hret : res.ret ≠ -1) (hint : Handler.IsInt res.ret) :
    ∃ reply, (h.handle r res).replies = h.replies ++ [reply] ∧
      messages reply = (res.data, res.ret) := by
  rw [Handler.handle_serve_read hphase hcmd [] res,
    Handler.serve_eq (Handler.head_of_commandOf hcmd)]
  show ∃ reply, ((Handler.sendData _ res).1.read [] res).1.replies = _ ∧ _
  rw [Handler.sendData, if_neg hret]
  exact ⟨_, rfl, Prod.ext rfl (Handler.atoi_format hint)⟩

/-- **One `read` of the client**: the slice and its length, or the text for an empty read. -/
theorem serveRead_eq (fd buf : Msg) (hphase : h.phase = .command) (hint : n < 2 ^ 31)
    (hroom : HasRoom n ((fs.remaining f).take n)) :
    ∃ h' reply, fs.serveRead (h, f) (request fd buf n) = some (h', (fs.trFileRead f n).2) ∧
      h'.phase = .command ∧ h'.replies = h.replies ++ [reply] ∧
      messages reply = (recoded ((fs.remaining f).take n),
        ((recoded ((fs.remaining f).take n)).length : Int)) := by
  let slice := (fs.remaining f).take n
  have hlen : (recoded slice).length < 2 ^ 31 := by
    unfold recoded
    split
    · decide
    · exact (List.length_take_le ..).trans_lt hint
  have hcmd : Handler.commandOf (request fd buf n) = some .read := Command.ofName_name .read
  have hnbytes : (Msg.atoi ((request fd buf n).getD 3 [])).toNat = n := by
    show (Msg.atoi (Msg.ofInt n)).toNat = n
    rw [Msg.atoi_ofInt, Int.toNat_natCast]
  obtain ⟨readBuf, honRead, htake⟩ := onRead_eq hroom
  let res : OpResult := ⟨(recoded slice).length, recoded slice, []⟩
  have hret : res.ret ≠ -1 := by
    show ((recoded slice).length : Int) ≠ -1
    omega
  have hresInt : Handler.IsInt res.ret := by
    show -2 ^ 31 ≤ ((recoded slice).length : Int) ∧ ((recoded slice).length : Int) < 2 ^ 31
    omega
  obtain ⟨reply, hreplies, hmessages⟩ := handle_read hphase hcmd hret hresInt
  refine ⟨h.handle (request fd buf n) res, reply, ?_, ?_, hreplies, hmessages⟩
  · simp only [serveRead, hnbytes, honRead, Option.bind_eq_bind, Option.bind_some]
    rw [Int.toNat_natCast, htake]
  · rw [Handler.handle_phase hphase, hcmd, if_neg nofun]

/-! ## Sequences of reads -/

/-- Each of the reads has room for the text, if it comes at the end. -/
def AllHaveRoom (rest : Msg) (ns : List Nat) : Prop :=
  ∀ x ∈ ns.zip (slices rest ns), HasRoom x.1 x.2

/-- The replies to a sequence of reads. -/
theorem serveReads_eq (fd buf : Msg) (hphase : h.phase = .command) (hint : ∀ n ∈ ns, n < 2 ^ 31)
    (hroom : AllHaveRoom (fs.remaining f) ns) :
    ∃ h' f' sent, fs.serveReads (h, f) (ns.map (request fd buf)) = some (h', f') ∧
      h'.replies = h.replies ++ sent ∧
      sent.map messages = (slices (fs.remaining f) ns).map
        (fun s => (recoded s, ((recoded s).length : Int))) ∧
      fs.remaining f' = (fs.remaining f).drop ns.sum := by
  induction ns generalizing h f with
  | nil => exact ⟨h, f, [], rfl, (List.append_nil _).symm, rfl, rfl⟩
  | cons n ns ih =>
    have hn := hroom (n, (fs.remaining f).take n) (List.mem_cons_self ..)
    obtain ⟨h₁, reply, hserve, hphase₁, hreplies₁, hmessages⟩ :=
      serveRead_eq fd buf hphase (hint n (List.mem_cons_self ..)) hn
    have hroom₁ : AllHaveRoom (fs.remaining (fs.trFileRead f n).2) ns := by
      rw [remaining_trFileRead]
      exact fun x hx => hroom x (List.mem_cons_of_mem _ hx)
    obtain ⟨h', f', sent, hserves, hreplies, hsent, hremaining⟩ :=
      ih hphase₁ (fun m hm => hint m (List.mem_cons_of_mem _ hm)) hroom₁
    rw [remaining_trFileRead] at hsent hremaining
    refine ⟨h', f', reply :: sent, ?_, ?_, ?_, ?_⟩
    · unfold serveReads at hserves ⊢
      simp only [List.map_cons, List.foldlM_cons, hserve, Option.bind_eq_bind, Option.bind_some]
      exact hserves
    · rw [hreplies, hreplies₁, List.append_assoc]
      rfl
    · rw [List.map_cons, hmessages, hsent]
      rfl
    · rw [hremaining, List.drop_drop, List.sum_cons]

/-- Without room the effect of the reads is not defined. -/
theorem serveReads_room {x : Handler × σ}
    (hserve : fs.serveReads (h, f) (ns.map (request fd buf)) = some x) :
    AllHaveRoom (fs.remaining f) ns := by
  induction ns generalizing h f with
  | nil => exact fun _ hmem => absurd hmem List.not_mem_nil
  | cons n ns ih =>
    simp only [serveReads, List.map_cons, List.foldlM_cons, Option.bind_eq_bind,
      Option.bind_eq_some_iff] at hserve
    obtain ⟨⟨h₁, f₁⟩, hfirst, hrest⟩ := hserve
    have hnbytes : (Msg.atoi ((request fd buf n).getD 3 [])).toNat = n := by
      show (Msg.atoi (Msg.ofInt n)).toNat = n
      rw [Msg.atoi_ofInt, Int.toNat_natCast]
    simp only [serveRead, hnbytes, Option.bind_eq_bind, Option.bind_eq_some_iff, Option.some.injEq,
      Prod.mk.injEq] at hfirst
    obtain ⟨r, honRead, -, hf₁⟩ := hfirst
    have hn := onRead_room honRead
    obtain ⟨readBuf, honRead', -⟩ := onRead_eq hn
    cases honRead.symm.trans honRead'
    have hroom := ih hrest
    rw [← hf₁, remaining_trFileRead] at hroom
    rintro x hx
    rcases List.mem_cons.mp hx with rfl | hx
    · exact hn
    · exact hroom x hx

/-- Reads are faithful exactly as long as each of them finds something to read. -/
theorem faithful_iff (hphase : h.phase = .command) (hint : ∀ n ∈ ns, n < 2 ^ 31) :
    fs.Faithful h f fd buf ns ↔ ∀ s ∈ slices (fs.remaining f) ns, s ≠ [] := by
  -- the recoded replies are the faithful ones only where nothing is recoded
  have hsame : (slices (fs.remaining f) ns).map (fun s => (recoded s, ((recoded s).length : Int))) =
      (slices (fs.remaining f) ns).map (fun s => (s, (s.length : Int))) ↔
        ∀ s ∈ slices (fs.remaining f) ns, s ≠ [] := by
    rw [List.map_inj_left]
    apply forall₂_congr
    intro s _
    unfold recoded
    by_cases hs : s = []
    · simp [hs, zeroText]
    · simp [hs]
  constructor
  · intro hfaithful
    obtain ⟨h', f', sent, hserve, hreplies, hsent⟩ := hfaithful
    obtain ⟨h₁, f₁, sent₁, hserve₁, hreplies₁, hsent₁, -⟩ :=
      serveReads_eq fd buf hphase hint (serveReads_room hserve)
    cases hserve.symm.trans hserve₁
    cases List.append_cancel_left (hreplies.symm.trans hreplies₁)
    exact hsame.mp (hsent₁.symm.trans hsent)
  · intro hne
    have hroom : AllHaveRoom (fs.remaining f) ns := by
      intro x hx hnil
      exact absurd hnil (hne x.2 (List.of_mem_zip hx).2)
    obtain ⟨h', f', sent, hserve, hreplies, hsent, -⟩ :=
      serveReads_eq fd buf hphase hint hroom
    exact ⟨h', f', sent, hserve, hreplies, hsent.trans (hsame.mpr hne)⟩

/-- **Reading to the end of the file**: the replies are those for consecutive slices of what is
    left of the file, with the text in place of an empty slice, and the position is moved by
    the slices. -/
theorem reads_to_the_end (hphase : h.phase = .command) (hint : ∀ n ∈ ns, n < 2 ^ 31)
    (hroom : AllHaveRoom (fs.remaining f) ns) :
    ∃ h' f' sent, fs.serveReads (h, f) (ns.map (request fd buf)) = some (h', f') ∧
      h'.replies = h.replies ++ sent ∧
      sent.map messages = (slices (fs.remaining f) ns).map
        (fun s => (recoded s, ((recoded s).length : Int))) ∧
      (slices (fs.remaining f) ns).flatten = (fs.remaining f).take ns.sum ∧
      fs.remaining f' = (fs.remaining f).drop ns.sum := by
  obtain ⟨h', f', sent, hserve, hreplies, hsent, hremaining⟩ := serveReads_eq fd buf hphase hint hroom
  exact ⟨h', f', sent, hserve, hreplies, hsent, flatten_slices, hremaining⟩

/-- A file of four bytes is read from its second byte on, and once more at its end. -/
theorem reads_to_the_end_three :
    ∃ h' f' sent, inMemory.serveReads (Handler.start [], "abcd".toList, 1)
        ([2, 100, 100].map (request "3".toList "dummy".toList)) = some (h', f') ∧
      h'.replies = (Handler.start []).replies ++ sent ∧
      sent.map messages = (slices (inMemory.remaining ("abcd".toList, 1)) [2, 100, 100]).map
        (fun s => (recoded s, ((recoded s).length : Int))) ∧
      (slices (inMemory.remaining ("abcd".toList, 1)) [2, 100, 100]).flatten =
        (inMemory.remaining ("abcd".toList, 1)).take [2, 100, 100].sum ∧
      inMemory.remaining f' = (inMemory.remaining ("abcd".toList, 1)).drop [2, 100, 100].sum :=
  reads_to_the_end rfl (by decide) (by unfold AllHaveRoom; decide)

/-- A read at the end of the file is not answered with no bytes and the count 0. -/
theorem read_at_the_end :
    ¬ inMemory.Faithful (Handler.start []) ("ab".toList, 2) "3".toList "dummy".toList [100] := by
  rw [faithful_iff rfl (by decide)]
  exact fun hne => hne [] (List.mem_cons_self ..) rfl

end ReadFile

end TxFS
