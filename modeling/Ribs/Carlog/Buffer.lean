import Ribs.Carlog.Rules
import Ribs.Carlog.Write
/-!
# Carlog — the data file and its buffer

The file and what is buffered behind it are together the log's stream.
`Tail` keeps that through every write of the buffer, and keeps what is
known to survive a crash: `T` is a beginning of every content that a
crash can leave of the file. A failed write stops the buffer; what was
appended only in part is then behind the stream.
-/

namespace Ribs

open Common

namespace Carlog

/-- Only the data file, its place and its buffer differ. -/
def FileOnly (w w' : World) : Prop := ∃ log data pos buffered,
  w' = { w with
    disk := { w.disk with blockLog := log }
    jb := { w.jb with data := data, dataPos := pos, dataBuffered := buffered } }

theorem FileOnly.refl (w : World) : FileOnly w w := ⟨_, _, _, _, rfl⟩

theorem FileOnly.trans {w w' w'' : World} (h : FileOnly w w') (h' : FileOnly w' w'') :
    FileOnly w w'' := by
  obtain ⟨_, _, _, _, rfl⟩ := h
  obtain ⟨_, _, _, _, rfl⟩ := h'
  exact ⟨_, _, _, _, rfl⟩

/-- Only the data file and what is known of it differ. -/
def AppendOnly (w w' : World) : Prop := ∃ log data pos buffered len lru,
  w' = { w with
    disk := { w.disk with blockLog := log }
    jb := { w.jb with
      data := data, dataPos := pos, dataBuffered := buffered, dataLen := len, writeLru := lru } }

theorem AppendOnly.refl (w : World) : AppendOnly w w := ⟨_, _, _, _, _, _, rfl⟩

theorem AppendOnly.trans {w w' w'' : World} (h : AppendOnly w w') (h' : AppendOnly w' w'') :
    AppendOnly w w'' := by
  obtain ⟨_, _, _, _, _, _, rfl⟩ := h
  obtain ⟨_, _, _, _, _, _, rfl⟩ := h'
  exact ⟨_, _, _, _, _, _, rfl⟩

theorem FileOnly.appendOnly {w w' : World} (h : FileOnly w w') : AppendOnly w w' := by
  obtain ⟨_, _, _, _, rfl⟩ := h
  exact ⟨_, _, _, _, _, _, rfl⟩

/-- The data file is open for appending at its end, behind it is the
buffer `b`, and every content a crash can leave begins with `T`. -/
structure HasTail (T : Bytes) (j : Journal Bytes) (f : DataFile) (b : BufWriter) (w : World) :
    Prop where
  log : w.disk.blockLog = some j
  durable : j.All (T <+: ·)
  data : w.jb.data = some f
  isOpen : f.isOpen = true
  off : f.off = j.current.length
  pos : w.jb.dataPos = some j.current.length
  buffered : w.jb.dataBuffered = some b

/-- **The stream is the file and the buffer.** After a failed write, which
needs `E`, the stream may be a beginning of them only; with `exact` it is
all of them. -/
structure Tail (E exact : Prop) (T S : Bytes) (j : Journal Bytes) (f : DataFile) (b : BufWriter)
    (w : World) : Prop extends HasTail T j f b w where
  stream : S <+: j.current ++ b.buf
  eq : b.err = none ∨ exact → S = j.current ++ b.buf
  err : b.err ≠ none → E

/-- There is a tail. -/
def Tailed (E exact : Prop) (T S : Bytes) (w : World) : Prop := ∃ j f b, Tail E exact T S j f b w

/-- There is one whose buffer has stopped. -/
def Stuck (E : Prop) (T S : Bytes) (w : World) : Prop :=
  ∃ j f b, Tail E False T S j f b w ∧ b.err ≠ none

/-- What a crash leaves of the data file. -/
def Kept (T : Bytes) (w w' : World) : Prop :=
  FileOnly w w' ∧ ∃ j, w'.disk.blockLog = some j ∧ j.All (T <+: ·)

variable {E exact : Prop} {F : Fates} {T S p : Bytes} {j : Journal Bytes} {f : DataFile}
  {b b' : BufWriter} {w w' : World}

theorem Stuck.of_isPrefix {S' : Bytes} (h : Stuck E T S w) (hpre : S' <+: S) :
    Stuck E T S' w := by
  obtain ⟨j, f, b, ht, herr⟩ := h
  exact ⟨j, f, b, { ht with
    stream := hpre.trans ht.stream
    eq := fun h => absurd h (by simp [herr]) }, herr⟩

theorem Stuck.tailed (h : Stuck E T S w) : Tailed E False T S w := by
  obtain ⟨j, f, b, ht, -⟩ := h
  exact ⟨j, f, b, ht⟩

theorem Tail.tailed (h : Tail E exact T S j f b w) : Tailed E exact T S w := ⟨j, f, b, h⟩

theorem Tail.inexact (h : Tail E exact T S j f b w) : Tail E False T S j f b w :=
  { h with eq := fun he => h.eq (Or.inl (he.resolve_right id)) }

theorem Tailed.inexact (h : Tailed E exact T S w) : Tailed E False T S w := by
  obtain ⟨j, f, b, ht⟩ := h
  exact ⟨j, f, b, ht.inexact⟩

theorem HasTail.kept (h : HasTail T j f b w) : Kept T w w :=
  ⟨.refl w, j, h.log, h.durable⟩

theorem Tailed.kept (h : Tailed E exact T S w) : Kept T w w := by
  obtain ⟨j, f, b, ht⟩ := h
  exact ht.toHasTail.kept

theorem Kept.of_fileOnly (h : Kept T w w') {u : World} (hu : FileOnly u w) : Kept T u w' :=
  ⟨hu.trans h.1, h.2⟩

namespace CarLog

/-! ## Writing to the file -/

/-- Writing at the end appends. -/
theorem overwrite_length (bs p : Bytes) : overwrite bs bs.length p = bs ++ p := by
  simp [overwrite]

/-- A write at the end of the file moves the tail. -/
theorem hasTail_appendFile (h : HasTail T j f b w) (p : Bytes) (b' : BufWriter) :
    FileOnly w (setBuffered b' (appendFile p w)) ∧
      ∃ j' f', HasTail T j' f' b' (setBuffered b' (appendFile p w)) ∧
        j'.current = j.current ++ p := by
  have hpre : T <+: j.current ++ p := h.durable.current.trans (List.prefix_append _ _)
  have hover : overwrite j.current f.off p = j.current ++ p := by rw [h.off, overwrite_length]
  obtain ⟨j', hj', hcur, hall⟩ : ∃ j' : Journal Bytes,
      j' = (if f.osync then (j.write (j.current ++ p)).sync else j.write (j.current ++ p)) ∧
        j'.current = j.current ++ p ∧ j'.All (T <+: ·) := by
    refine ⟨_, rfl, ?_, ?_⟩ <;> split
    · simp
    · simp
    · exact (h.durable.write hpre).sync
    · exact h.durable.write hpre
  have hw : appendFile p w = { w with
      disk := { w.disk with blockLog := some j' }
      jb := { w.jb with
        data := some { f with off := f.off + p.length }
        dataPos := some (j.current.length + p.length) } } := by
    simp only [appendFile, h.data, writeBlockLog, h.log, Option.map_some, hover, h.pos, hj']
  rw [hw]
  refine ⟨⟨_, _, _, _, rfl⟩, j', { f with off := f.off + p.length }, ?_, hcur⟩
  exact ⟨rfl, hall, rfl, h.isOpen, by simp [hcur, h.off], by simp [setBuffered, hcur], rfl⟩

theorem wp_writeOut (h : HasTail T j f b w) (p : Bytes) (keep : ℕ → Bytes) :
    wp F (writeOut p keep)
      ⟨fun _ w' => FileOnly w w' ∧ ∃ j' f', HasTail T j' f' ⟨[], none⟩ w' ∧
          j'.current = j.current ++ p,
        fun _ w' => Failing F ∧ FileOnly w w' ∧ ∃ n j' f', HasTail T j' f' ⟨keep n, some .io⟩ w' ∧
          j'.current = j.current ++ p.take n,
        fun w' => w' = w, fun _ _ => False⟩ w := by
  have hopen : (w.jb.data.map DataFile.isOpen).getD false = true := by simp [h.data, h.isOpen]
  simp only [writeOut, wp, if_pos hopen]
  refine ⟨hasTail_appendFile h p _, fun n hn => ?_, fun _ => trivial⟩
  obtain ⟨honly, j', f', ht, hcur⟩ := hasTail_appendFile h (p.take n) ⟨keep n, some .io⟩
  exact ⟨⟨n, hn⟩, honly, n, j', f', ht, hcur⟩

/-- **Flushing** moves the buffer into the file. -/
theorem wp_flush (hE : Failing F → E) (h : Tail E exact T S j f b w) : wp F flush
    ⟨fun _ w' => FileOnly w w' ∧ ∃ j' f', Tail E exact T S j' f' ⟨[], none⟩ w',
      fun _ w' => E ∧ FileOnly w w' ∧ ∃ j' f' b', Tail E exact T S j' f' b' w' ∧ b'.err ≠ none,
      Kept T w, fun _ _ => False⟩ w := by
  obtain ⟨buf, _ | e⟩ := b
  · simp only [flush, wp_get, h.buffered]
    have hS : S = j.current ++ buf := h.eq (Or.inl rfl)
    split_ifs with hbuf
    · subst hbuf
      exact ⟨.refl w, j, f, h⟩
    · refine wp_mono (wp_writeOut h.toHasTail buf _) ?_ ?_ ?_ fun _ _ => id
      · rintro - w' ⟨honly, j', f', ht, hcur⟩
        have hS' : S = j'.current ++ [] := by rw [hcur, hS, List.append_nil]
        exact ⟨honly, j', f', { ht with
          stream := hS' ▸ List.prefix_rfl, eq := fun _ => hS', err := fun h => absurd rfl h }⟩
      · rintro - w' ⟨hfail, honly, n, j', f', ht, hcur⟩
        have hS' : S = j'.current ++ buf.drop n := by
          rw [hcur, hS, List.append_assoc, List.take_append_drop]
        exact ⟨hE hfail, honly, j', f', _, { ht with
          stream := hS' ▸ List.prefix_rfl, eq := fun _ => hS', err := fun _ => hE hfail },
          by simp⟩
      · rintro _ rfl
        exact h.toHasTail.kept
  · simp only [flush, wp_get, h.buffered]
    exact ⟨h.err (by simp), .refl w, j, f, _, h, by simp⟩

/-- Writing past an empty buffer appends to the stream. -/
theorem wp_writeThrough (hE : Failing F → E) (h : Tail E exact T S j f ⟨[], none⟩ w) (p : Bytes) :
    wp F (writeOut p fun _ => [])
      ⟨fun _ w' => FileOnly w w' ∧ Tailed E exact T (S ++ p) w',
        fun _ w' => FileOnly w w' ∧ Stuck E T S w', Kept T w, fun _ _ => False⟩ w := by
  have hS : S = j.current := by simpa using h.eq (Or.inl rfl)
  refine wp_mono (wp_writeOut h.toHasTail p _) ?_ ?_ ?_ fun _ _ => id
  · rintro - w' ⟨honly, j', f', ht, hcur⟩
    have hS' : S ++ p = j'.current ++ [] := by rw [hcur, hS, List.append_nil]
    exact ⟨honly, j', f', _, { ht with
      stream := hS' ▸ List.prefix_rfl, eq := fun _ => hS', err := fun h => absurd rfl h }⟩
  · rintro - w' ⟨hfail, honly, n, j', f', ht, hcur⟩
    refine ⟨honly, j', f', _, { ht with
      stream := ?_, eq := fun he => absurd he (by simp), err := fun _ => hE hfail }, by simp⟩
    rw [hcur, hS, List.append_nil]
    exact List.prefix_append _ _
  · rintro _ rfl
    exact h.toHasTail.kept

/-- Buffering what fits appends to the stream. -/
theorem tail_setBuffered {buf : Bytes} (h : Tail E exact T S j f ⟨buf, none⟩ w) (q : Bytes) :
    FileOnly w (setBuffered ⟨buf ++ q, none⟩ w) ∧
      Tail E exact T (S ++ q) j f ⟨buf ++ q, none⟩ (setBuffered ⟨buf ++ q, none⟩ w) := by
  have hS : S ++ q = j.current ++ (buf ++ q) := by rw [h.eq (Or.inl rfl), List.append_assoc]
  exact ⟨⟨_, _, _, _, rfl⟩, { h with
    buffered := rfl, stream := hS ▸ List.prefix_rfl, eq := fun _ => hS
    err := fun h => absurd rfl h }⟩

/-- **Buffering** appends to the stream, or stops the buffer. -/
theorem wp_bufWrite (hE : Failing F → E) (h : Tail E exact T S j f b w) (p : Bytes) :
    wp F (bufWrite p)
      ⟨fun _ w' => FileOnly w w' ∧ Tailed E exact T (S ++ p) w',
        fun _ w' => FileOnly w w' ∧ Stuck E T S w', Kept T w, fun _ _ => False⟩ w := by
  obtain ⟨buf, _ | e⟩ := b
  · simp only [bufWrite, wp_get, h.buffered]
    by_cases hfit : p.length ≤ jbobBufSize - buf.length
    · rw [if_pos hfit]
      exact ⟨(tail_setBuffered h p).1, (tail_setBuffered h p).2.tailed⟩
    rw [if_neg hfit]
    by_cases hbuf : buf = []
    · subst hbuf
      exact wp_writeThrough hE h p
    rw [if_neg hbuf, wp_bind, wp_modify]
    -- the buffer is filled and flushed, and the rest is buffered or written through
    obtain ⟨honly, hfull⟩ := tail_setBuffered h (p.take (jbobBufSize - buf.length))
    refine wp_seq (wp_flush hE hfull) ?_ ?_ ?_ fun _ _ => id
    · rintro - w' ⟨honly', j', f', ht⟩
      have hall : S ++ p.take (jbobBufSize - buf.length) ++ p.drop (jbobBufSize - buf.length) =
          S ++ p := by rw [List.append_assoc, List.take_append_drop]
      refine wp_ite.mpr ⟨fun _ => ?_, fun _ => ?_⟩
      · have ht' := tail_setBuffered ht (p.drop (jbobBufSize - buf.length))
        rw [hall] at ht'
        exact ⟨(honly.trans honly').trans ht'.1, ht'.2.tailed⟩
      · refine wp_mono (wp_writeThrough hE ht _) ?_ ?_ ?_ fun _ _ => id
        · rintro - u ⟨honly'', hu⟩
          exact ⟨(honly.trans honly').trans honly'', hall ▸ hu⟩
        · rintro - u ⟨honly'', hu⟩
          exact ⟨(honly.trans honly').trans honly'', hu.of_isPrefix (List.prefix_append _ _)⟩
        · exact fun u hu => hu.of_fileOnly (honly.trans honly')
    · rintro - w' ⟨-, honly', j', f', b', ht, herr⟩
      exact ⟨honly.trans honly', Stuck.of_isPrefix ⟨j', f', b', ht.inexact, herr⟩
        (List.prefix_append _ _)⟩
    · exact fun w' hw' => hw'.of_fileOnly honly
  · simp only [bufWrite, wp_get, h.buffered]
    exact ⟨.refl w, j, f, _, h.inexact, by simp⟩

/-- The parts of an entry, one after the other. -/
theorem wp_forM_bufWrite (hE : Failing F → E) (d : List Bytes) {S : Bytes} {w : World}
    (h : Tailed E exact T S w) : wp F (d.forM bufWrite)
      ⟨fun _ w' => FileOnly w w' ∧ Tailed E exact T (S ++ d.flatten) w',
        fun _ w' => FileOnly w w' ∧ Stuck E T S w', Kept T w, fun _ _ => False⟩ w := by
  induction d generalizing S w with
  | nil => exact ⟨.refl w, by simpa using h⟩
  | cons p d ih =>
    obtain ⟨j, f, b, ht⟩ := h
    change wp F (bufWrite p >>= fun _ => d.forM bufWrite) _ w
    refine wp_seq (wp_bufWrite hE ht p) ?_ (fun _ _ => id) (fun _ => id) fun _ _ => id
    rintro - w' ⟨honly, ht'⟩
    refine wp_mono (ih ht') ?_ ?_ ?_ fun _ _ => id
    · rintro - u ⟨honly', hu⟩
      exact ⟨honly.trans honly', by simpa using hu⟩
    · rintro - u ⟨honly', hu⟩
      exact ⟨honly.trans honly', hu.of_isPrefix (List.prefix_append _ _)⟩
    · exact fun u hu => hu.of_fileOnly honly

/-- **Appending an entry** appends its frame. -/
theorem wp_ldWrite (hE : Failing F → E) (h : Tailed E exact T S w) (d : List Bytes) :
    wp F (ldWrite d)
      ⟨fun n w' => n = frameSize d.flatten.length ∧ FileOnly w w' ∧
          Tailed E exact T (S ++ framed d.flatten) w',
        fun _ w' => FileOnly w w' ∧ Stuck E T S w', Kept T w, fun _ _ => False⟩ w := by
  obtain ⟨j, f, b, ht⟩ := h
  have hsum : (d.map List.length).sum = d.flatten.length := by rw [List.length_flatten]
  simp only [ldWrite, hsum]
  refine wp_seq (wp_bufWrite hE ht _) ?_ (fun _ _ => id) (fun _ => id) fun _ _ => id
  rintro - w' ⟨honly, ht'⟩
  refine wp_seq (wp_forM_bufWrite hE d ht') ?_ ?_ ?_ fun _ _ => id
  · rintro - u ⟨honly', hu⟩
    refine ⟨Nat.add_comm _ _, honly.trans honly', ?_⟩
    rwa [framed, ← List.append_assoc]
  · rintro - u ⟨honly', hu⟩
    exact ⟨honly.trans honly', hu.of_isPrefix (List.prefix_append _ _)⟩
  · exact fun u hu => hu.of_fileOnly honly

/-- **What is buffered is flushed**, or nothing was buffered. -/
theorem wp_flushBuffered (hE : Failing F → E) (h : Tailed E exact T S w) : wp F flushBuffered
    ⟨fun _ w' => FileOnly w w' ∧ ∃ j' f' e, Tail E exact T S j' f' ⟨[], e⟩ w',
      fun _ w' => E ∧ FileOnly w w' ∧ Tailed E exact T S w',
      Kept T w, fun _ _ => False⟩ w := by
  obtain ⟨j, f, ⟨buf, e⟩, ht⟩ := h
  simp only [flushBuffered, wp_get, ht.buffered, wp_bind, wp_deref_some]
  split_ifs with hbuf
  · subst hbuf
    exact ⟨.refl w, j, f, e, ht⟩
  · refine wp_mono (wp_flush hE ht) ?_ ?_ (fun _ => id) fun _ _ => id
    · rintro - w' ⟨honly, j', f', ht'⟩
      exact ⟨honly, j', f', none, ht'⟩
    · rintro - w' ⟨hfail, honly, j', f', b', ht', -⟩
      exact ⟨hfail, honly, ht'.tailed⟩

/-- **Syncing** makes what is flushed survive every crash. -/
theorem wp_dataSync (hE : Failing F → E) {e : Option Err}
    (h : Tail E exact T S j f ⟨[], e⟩ w) : wp F dataSync
      ⟨fun _ w' => FileOnly w w' ∧ ∃ j', Tail E exact S S j' f ⟨[], e⟩ w',
        fun _ w' => E ∧ w' = w, fun w' => w' = w, fun _ _ => False⟩ w := by
  have hS : S <+: j.current := by simpa using h.stream
  simp only [dataSync, openData, wp_bind, wp_get, h.data, h.isOpen, if_true, wp_ret, wp_ioWrite]
  refine ⟨⟨⟨_, _, _, _, rfl⟩, j.sync, ?_⟩, fun hfail => ⟨hE hfail, trivial⟩, fun _ => trivial⟩
  exact { h with
    log := by simp [modifyDisk, h.log]
    durable := Journal.all_clean.mpr hS
    data := h.data }

end CarLog

end Carlog

end Ribs
