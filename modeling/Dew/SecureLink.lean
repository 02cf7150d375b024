/-
# Sealed frames between peers

After the handshake a message goes over the connection as a frame: its length in four bytes, then its
type and payload sealed with the number of the message as nonce. A network that may drop, repeat,
reorder and make up bytes can only end such a connection: the frames received are the first of the
frames sent (`received_in_order`). What is taken from AES-GCM is that a ciphertext opens only if it
was sealed under the same nonce.
-/
import Dew.Database
import Mathlib.Data.List.Infix

open Bytes

namespace Dew.P2P.Secure

/-! ## Frames -/

/-- `Frame` -/
@[ext]
structure Frame where
  type : UInt8
  payload : Bytes
deriving DecidableEq, Repr

/-- The plaintext of a frame. -/
def Frame.plain (f : Frame) : Bytes :=
  f.type :: f.payload

inductive FrameError where
  | tooLarge (n : ℕ) (maxSize : ℤ)
  | eof (started : Bool)
  | length (n : ℕ)
  | decrypt
  | empty
deriving DecidableEq, Repr

def FrameError.text : FrameError → String
  | tooLarge n maxSize => s!"p2p: encrypted message too large: {n} > {maxSize}"
  | eof started => if started then "unexpected EOF" else "EOF"
  | length n => s!"p2p: encrypted frame length {n} invalid"
  | decrypt => "p2p: decrypt: cipher: message authentication failed"
  | empty => "p2p: empty decrypted frame"

/-- `cipher.AEAD`: sealing and opening with a nonce, and how much longer a ciphertext is. -/
structure Aead where
  overhead : ℕ
  sealWith : Bytes → Bytes → Bytes
  openWith : Bytes → Bytes → Option Bytes

/-- The nonce of a counter: four zero bytes, then the counter. -/
def nonceBytes (n : U64) : Bytes :=
  List.replicate 4 0 ++ beBytes 8 n.toNat

theorem nonceBytes_injective : Function.Injective nonceBytes := fun m n h =>
  BitVec.eq_of_toNat_eq (beBytes_injective m.isLt n.isLt (List.append_cancel_left h))

/-- `io.ReadFull` of `n` bytes, and what is left of the stream. -/
def readFull (n : ℕ) (stream : Bytes) : Except FrameError (Bytes × Bytes) :=
  if stream.length < n then .error (.eof (stream ≠ [])) else .ok (stream.take n, stream.drop n)

variable (aead : Aead) (maxSize : ℤ)

/-- `secureConn.WriteFrame` on the sending half of the session, whose counter is `sendN`. -/
def writeFrame (sendN : U64) (f : Frame) : Except FrameError Bytes × U64 :=
  if maxSize < f.plain.length then (.error (.tooLarge f.plain.length maxSize), sendN)
  else
    let ct := aead.sealWith (nonceBytes sendN) f.plain
    (.ok (beBytes 4 ct.length ++ ct), sendN + 1)

/-- The part of `secureConn.ReadFrame` that takes a ciphertext from the connection. -/
def readCiphertext (stream : Bytes) : Except FrameError (Bytes × Bytes) := do
  let (hdr, stream) ← readFull 4 stream
  let n := ofBytes hdr
  if n = 0 ∨ maxSize + aead.overhead < n then .error (.length n) else readFull n stream

/-- `secureConn.ReadFrame` on the receiving half; a ciphertext that does not open uses up a number
as well. -/
def readFrame (recvN : U64) (stream : Bytes) : Except FrameError (Frame × Bytes) × U64 :=
  match readCiphertext aead maxSize stream with
  | .error err => (.error err, recvN)
  | .ok (ct, stream) =>
    match aead.openWith (nonceBytes recvN) ct with
    | none => (.error .decrypt, recvN + 1)
    | some [] => (.error .empty, recvN + 1)
    | some (type :: payload) => (.ok (⟨type, payload⟩, stream), recvN + 1)

variable {aead maxSize}

theorem readFrame_eq_ok {n n' : U64} {f : Frame} {stream rest : Bytes}
    (h : readFrame aead maxSize n stream = (.ok (f, rest), n')) :
    n' = n + 1 ∧ ∃ ct, readCiphertext aead maxSize stream = .ok (ct, rest) ∧
      aead.openWith (nonceBytes n) ct = some f.plain := by
  unfold readFrame at h
  split at h
  · cases h
  · rename_i ct rest' hread
    split at h <;> cases h
    exact ⟨rfl, ct, hread, ‹_›⟩

/-! ## A network that is not trusted -/

/-- One direction of a connection, with the record of what was sealed, sent and received. -/
structure Link where
  sendN : U64
  recvN : U64
  closed : Bool
  sealings : List (Bytes × Bytes)
  sent : List Frame
  received : List Frame

namespace Link

/-- The session after the handshake. -/
def start : Link :=
  ⟨0, 0, false, [], [], []⟩

variable (aead maxSize)

/-- A frame is written. -/
def write (L : Link) (f : Frame) : Link :=
  match writeFrame aead maxSize L.sendN f with
  | (.error _, n) => { L with sendN := n }
  | (.ok _, n) =>
    { L with
      sendN := n
      sealings := L.sealings ++ [(nonceBytes L.sendN, f.plain)]
      sent := L.sent ++ [f] }

/-- A round of `runRead`, which closes the connection after an error. -/
def read (L : Link) (stream : Bytes) : Link :=
  match readFrame aead maxSize L.recvN stream with
  | (.error _, n) => { L with recvN := n, closed := true }
  | (.ok (f, _), n) => { L with recvN := n, received := L.received ++ [f] }

/-- The network has not forged the next ciphertext: if it opens, it was sealed under that nonce. -/
def Unforged (L : Link) (stream : Bytes) : Prop :=
  ∀ ct rest plain, readCiphertext aead maxSize stream = .ok (ct, rest) →
    aead.openWith (nonceBytes L.recvN) ct = some plain →
    (nonceBytes L.recvN, plain) ∈ L.sealings

/-- The states that frames written and bytes arriving in any order lead to. -/
inductive Reached : Link → Prop where
  | start : Reached start
  | write {L : Link} (f : Frame) : Reached L → Reached (L.write aead maxSize f)
  | read {L : Link} (stream : Bytes) : Reached L → L.closed = false →
      Unforged aead maxSize L stream → Reached (L.read aead maxSize stream)

/-- The counters number the frames, and what was received was sent first. -/
structure Ordered (L : Link) : Prop where
  sendN : L.sendN = BitVec.ofNat 64 L.sent.length
  sealings : L.sealings =
    L.sent.zipIdx.map fun x => (nonceBytes (BitVec.ofNat 64 x.2), x.1.plain)
  recvN : L.closed = false → L.recvN = BitVec.ofNat 64 L.received.length
  received : L.sent.length < 2 ^ 64 → L.received <+: L.sent

variable {aead maxSize} {L : Link}

theorem Ordered.write (h : Ordered L) (f : Frame) : Ordered (L.write aead maxSize f) := by
  unfold Link.write writeFrame
  split
  · rename_i heq
    split at heq <;> cases heq
    exact h
  · rename_i heq
    split at heq <;> cases heq
    refine ⟨?_, ?_, h.recvN, ?_⟩
    · simp [h.sendN, BitVec.ofNat_add]
    · simp [h.sealings, h.sendN, List.zipIdx_append]
    · intro hlen
      simp only [List.length_append, List.length_singleton] at hlen
      exact (h.received (by omega)).trans (List.prefix_append _ _)

/-- A frame that is received carries the number of the frames received before. -/
theorem Ordered.read (h : Ordered L) (hopen : L.closed = false) {stream : Bytes}
    (hnew : Unforged aead maxSize L stream) : Ordered (L.read aead maxSize stream) := by
  unfold Link.read
  split
  · exact ⟨h.sendN, h.sealings, fun hclosed => Bool.noConfusion hclosed, h.received⟩
  · rename_i f rest n heq
    obtain ⟨rfl, ct, hread, hplain⟩ := readFrame_eq_ok heq
    refine ⟨h.sendN, h.sealings, fun _ => ?_, fun hlen => ?_⟩
    · simp [h.recvN hopen, BitVec.ofNat_add]
    · replace hlen : L.sent.length < 2 ^ 64 := hlen
      have hmem := hnew ct rest _ hread hplain
      rw [h.sealings] at hmem
      obtain ⟨⟨g, i⟩, hi, heq⟩ := List.mem_map.mp hmem
      obtain ⟨hnonce, hsame⟩ := Prod.mk.inj heq
      have hget : L.sent[i]? = some g := List.mem_zipIdx_iff_getElem?.mp hi
      obtain ⟨hlt, rfl⟩ := List.getElem?_eq_some_iff.mp hget
      have hle := (h.received hlen).length_le
      -- both numbers are below `2 ^ 64`, so the nonce tells them apart
      obtain rfl : i = L.received.length := by
        have hnat := congrArg BitVec.toNat ((nonceBytes_injective hnonce).trans (h.recvN hopen))
        simp only [BitVec.toNat_ofNat] at hnat
        omega
      obtain ⟨htype, hpayload⟩ := List.cons.inj hsame
      rw [← Frame.ext htype hpayload]
      exact List.concat_get_prefix (h.received hlen) hlt

theorem Ordered.of_reached (h : Reached aead maxSize L) : Ordered L := by
  induction h with
  | start => exact ⟨rfl, rfl, fun _ => rfl, fun _ => List.nil_prefix⟩
  | write f _ ih => exact ih.write f
  | read stream _ hopen hnew ih => exact ih.read hopen hnew

/-- Frames are received in the order in which they were sent, each once and none left out, whatever
the network does. -/
theorem received_in_order (h : Reached aead maxSize L) (hlen : L.sent.length < 2 ^ 64) :
    L.received <+: L.sent :=
  (Ordered.of_reached h).received hlen

/-- A cipher that leaves the text as it is. -/
def clear : Aead :=
  ⟨0, fun _ plain => plain, fun _ ct => some ct⟩

theorem first_frame_received : ∃ L, Reached clear 100 L ∧ L.received = [⟨7, [1]⟩] ∧
    L.received <+: L.sent := by
  have h : Reached clear 100 ((start.write clear 100 ⟨7, [1]⟩).read clear 100
      [0, 0, 0, 2, 7, 1]) := by
    refine .read _ (.write _ .start) rfl fun ct rest plain hread hplain => ?_
    have hct : readCiphertext clear 100 [0, 0, 0, 2, 7, 1] = .ok ([7, 1], []) := by decide
    cases hct.symm.trans hread
    cases hplain
    exact List.mem_singleton.mpr rfl
  exact ⟨_, h, rfl, received_in_order h (by decide)⟩

end Link

end Dew.P2P.Secure
