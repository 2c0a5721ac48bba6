import Ribs.Common.Uvarint
import Mathlib.Data.List.TakeDrop
import Mathlib.Data.List.Infix
/-!
# Length-delimited frames

A frame is the varint of a payload's length and then the payload. A
sequence of frames is a free code: the payloads are determined by the
bytes, a reader hands them out one by one, and a sequence cut inside a
frame is not a sequence of frames. `FrameAt` says that a frame stands at
an offset of a byte string, the form in which an index speaks of one.
-/

namespace Common

/-- The frame of a payload. -/
def framed (p : Bytes) : Bytes := putUvarint p.length ++ p

/-- The size of the frame of `n` bytes. -/
def frameSize (n : ℕ) : ℕ := (putUvarint n).length + n

/-- The frames of `ps`, one after the other. -/
def frames (ps : List Bytes) : Bytes := ps.flatMap framed

/-- Why reading a frame fails. -/
inductive FrameError where
  /-- No byte is left. -/
  | eof
  /-- The bytes end inside the length, or inside the payload. -/
  | unexpectedEOF
  | overflow
  | tooLarge
deriving DecidableEq, Repr

/-- Read one frame of at most `max` bytes. A stream that ends right after
the length reads as ended, as `io.ReadFull` has it. -/
def readFrame (max : ℕ) : Bytes → Except FrameError (Bytes × Bytes)
  | [] => .error .eof
  | b :: bs =>
    match readUvarint (b :: bs) with
    | .error .eof => .error .unexpectedEOF
    | .error .overflow => .error .overflow
    | .ok (n, rest) =>
      if max < n then .error .tooLarge
      else if n ≤ rest.length then .ok (rest.take n, rest.drop n)
      else if rest = [] then .error .eof
      else .error .unexpectedEOF

@[simp] theorem length_framed (p : Bytes) : (framed p).length = frameSize p.length := by
  simp [framed, frameSize]

theorem frameSize_pos (n : ℕ) : 0 < frameSize n := Nat.add_pos_left length_putUvarint_pos n

theorem lt_frameSize (n : ℕ) : n < frameSize n :=
  Nat.lt_add_of_pos_left length_putUvarint_pos

theorem frameSize_le (n : ℕ) : frameSize n ≤ 10 + n := by
  have := length_putUvarint_le n
  simp only [frameSize, maxVarintLen64] at this ⊢
  omega

theorem framed_ne_nil (p : Bytes) : framed p ≠ [] := by
  rw [← List.length_pos_iff, length_framed]
  exact frameSize_pos _

@[simp] theorem frames_nil : frames [] = [] := rfl

@[simp] theorem frames_cons (p : Bytes) (ps : List Bytes) :
    frames (p :: ps) = framed p ++ frames ps := List.flatMap_cons ..

@[simp] theorem frames_append (ps qs : List Bytes) : frames (ps ++ qs) = frames ps ++ frames qs :=
  List.flatMap_append ..

@[simp] theorem frames_singleton (p : Bytes) : frames [p] = framed p := by simp

@[simp] theorem readFrame_nil (max : ℕ) : readFrame max [] = .error .eof := rfl

/-- **A written frame is read back**, and what follows it is left. -/
theorem readFrame_framed {max : ℕ} {p : Bytes} (hmax : p.length ≤ max) (h64 : p.length < 2 ^ 64)
    (rest : Bytes) : readFrame max (framed p ++ rest) = .ok (p, rest) := by
  obtain ⟨b, bs, hb⟩ := List.exists_cons_of_ne_nil (putUvarint_ne_nil (x := p.length))
  have hcons : framed p ++ rest = b :: (bs ++ (p ++ rest)) := by
    simp [framed, hb]
  have hread : readUvarint (b :: (bs ++ (p ++ rest))) = .ok (p.length, p ++ rest) := by
    rw [← List.cons_append, ← hb]
    exact readUvarint_putUvarint h64 _
  rw [hcons, readFrame, hread]
  simp [if_neg (Nat.not_lt.mpr hmax)]

/-- A frame that was read took bytes of the stream. -/
theorem length_lt_of_readFrame {max : ℕ} {bs p rest : Bytes}
    (h : readFrame max bs = .ok (p, rest)) : rest.length < bs.length := by
  cases bs with
  | nil => simp at h
  | cons b bs =>
    rw [readFrame] at h
    cases hread : readUvarint (b :: bs) with
    | error e => cases e <;> simp [hread] at h
    | ok x =>
      obtain ⟨n, tail⟩ := x
      have hlt := length_lt_of_readUvarint hread
      simp only [hread] at h
      split_ifs at h
      obtain ⟨-, rfl⟩ := Prod.mk.inj (Except.ok.inj h)
      rw [List.length_drop]
      omega

/-- A frame and what follows it are determined by the bytes. -/
theorem framed_append_inj {p q a b : Bytes} (hp : p.length < 2 ^ 64) (hq : q.length < 2 ^ 64)
    (h : framed p ++ a = framed q ++ b) : p = q ∧ a = b := by
  simp only [framed, List.append_assoc] at h
  obtain ⟨hlen, hrest⟩ := putUvarint_append_inj hp hq h
  exact List.append_inj hrest hlen

/-- **A cut inside a frame leaves no sequence of frames.** -/
theorem not_frames_of_torn {p cut : Bytes} (hp : p.length < 2 ^ 63) (hcut : cut <+: framed p)
    (hne : cut ≠ []) (hlt : cut.length < (framed p).length) (ps : List Bytes) :
    cut ≠ frames ps := by
  rintro rfl
  obtain ⟨rest, hrest⟩ := hcut
  cases ps with
  | nil => exact hne rfl
  | cons q qs =>
    rw [frames_cons] at hrest hlt
    have hfit : (framed q).length ≤ (framed p).length := by
      rw [← hrest]; simp
    have hq : q.length < 2 ^ 64 := by
      have h1 := lt_frameSize q.length
      have h2 := frameSize_le p.length
      simp only [length_framed] at hfit
      omega
    have heq : p = q ∧ [] = frames qs ++ rest := by
      refine framed_append_inj (by omega) hq ?_
      rw [List.append_nil, ← hrest, List.append_assoc]
    have hnil : frames qs ++ rest = [] := heq.2.symm
    rw [List.append_eq_nil_iff] at hnil
    rw [← hrest, hnil.1, hnil.2] at hlt
    simp at hlt

/-! ## A frame at an offset -/

/-- **A frame stands at an offset.** -/
def FrameAt (bs : Bytes) (off : ℕ) (p : Bytes) : Prop :=
  ∃ pre post, bs = pre ++ framed p ++ post ∧ pre.length = off

namespace FrameAt

variable {bs p : Bytes} {off : ℕ}

/-- What is appended does not move a frame. -/
theorem append (h : FrameAt bs off p) (more : Bytes) : FrameAt (bs ++ more) off p := by
  obtain ⟨pre, post, rfl, hoff⟩ := h
  exact ⟨pre, post ++ more, by simp, hoff⟩

theorem of_isPrefix {cs : Bytes} (h : FrameAt bs off p) (hpre : bs <+: cs) : FrameAt cs off p := by
  obtain ⟨more, rfl⟩ := hpre
  exact h.append more

/-- What is put in front moves it. -/
theorem append_left (h : FrameAt bs off p) (front : Bytes) :
    FrameAt (front ++ bs) (front.length + off) p := by
  obtain ⟨pre, post, rfl, hoff⟩ := h
  exact ⟨front ++ pre, post, by simp, by simp [hoff]⟩

/-- It ends inside the bytes. -/
theorem end_le (h : FrameAt bs off p) : off + frameSize p.length ≤ bs.length := by
  obtain ⟨pre, post, rfl, rfl⟩ := h
  simp only [List.length_append, length_framed]
  omega

/-- A cut behind a frame does not touch it. -/
theorem take (h : FrameAt bs off p) {n : ℕ} (hn : off + frameSize p.length ≤ n) :
    FrameAt (bs.take n) off p := by
  obtain ⟨pre, post, rfl, rfl⟩ := h
  refine ⟨pre, post.take (n - (pre ++ framed p).length), ?_, rfl⟩
  rw [List.take_append, List.take_of_length_le (by simpa using hn)]

/-- The payload is what stands behind the length. -/
theorem payload_eq (h : FrameAt bs off p) :
    (bs.drop (off + (putUvarint p.length).length)).take p.length = p := by
  obtain ⟨pre, post, rfl, rfl⟩ := h
  rw [List.append_assoc, ← List.drop_drop, List.drop_left, framed, List.append_assoc,
    List.drop_left, List.take_left]

/-- Two frames at one offset are one frame. -/
theorem unique {q : Bytes} (hp : p.length < 2 ^ 64) (hq : q.length < 2 ^ 64)
    (h : FrameAt bs off p) (h' : FrameAt bs off q) : p = q := by
  obtain ⟨pre, post, rfl, rfl⟩ := h
  obtain ⟨pre', post', heq, hlen⟩ := h'
  rw [List.append_assoc, List.append_assoc] at heq
  exact (framed_append_inj hp hq (List.append_inj heq hlen.symm).2).1

end FrameAt

/-- The frame behind a byte string stands at its length. -/
theorem frameAt_length (pre p post : Bytes) : FrameAt (pre ++ framed p ++ post) pre.length p :=
  ⟨pre, post, rfl, rfl⟩

/-- **The frames of a sequence stand at the ends of its initial segments.** -/
theorem frameAt_frames {ps : List Bytes} {i : ℕ} (hi : i < ps.length) :
    FrameAt (frames ps) (frames (ps.take i)).length ps[i] := by
  refine ⟨frames (ps.take i), frames (ps.drop (i + 1)), ?_, rfl⟩
  rw [← frames_singleton, ← frames_append, ← frames_append, List.append_assoc,
    List.singleton_append, List.getElem_cons_drop, List.take_append_drop]

end Common
