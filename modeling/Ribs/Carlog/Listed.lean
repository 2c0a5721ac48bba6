import Ribs.Carlog.Encoding
import Ribs.Carlog.Finalize
import Ribs.Carlog.Rules
import Ribs.Carlog.Stream
/-!
# Carlog — what a listing takes for a whole CAR

`carIdxSource.List` reads a CAR while its source writes it, entry by entry,
and ends the list without an error at the first one that it cannot read.
Whether the stream was read to its end is told by a flag, which is also set
when the stream ends inside of an entry.
-/

namespace Ribs

open Common

namespace Carlog

open CarLog (listEntries listStream listCar endsClean copyCar captureOutput finDataReload)

section

variable [X : External]

/-! ## The entries of a stream -/

/-- **The entries of a stream** from offset `at_` on, as far as they can be
read, and what is left behind them. -/
inductive Entries : ℕ → Bytes → Bsst.Source → Bytes → Prop
  | rest {at_ : ℕ} {bs : Bytes} (h : ∀ x, readFrame maxAllowedSectionSize bs ≠ .ok x) :
    Entries at_ bs [] bs
  | entry {at_ n : ℕ} {bs d tail left : Bytes} {c : Cid} {source : Bsst.Source}
    (hread : readFrame maxAllowedSectionSize bs = .ok (d, tail))
    (hcid : X.cidFromBytes d = some (n, c))
    (h : Entries (at_ + frameSize d.length) tail source left) :
    Entries at_ bs ((c.hash, [makeOffsetLen at_ d.length]) :: source) left

/-- A stream reads as a CAR: its header has the version, and behind it are
the entries of `source`, and what is left. -/
def ReadsAs (stream : Bytes) (version : ℕ) (source : Bsst.Source) (left : Bytes) : Prop :=
  ∃ hb rest roots, readFrame maxAllowedSectionSize stream = .ok (hb, rest) ∧
    X.decodeHeader hb = some (version, roots) ∧
    Entries (framed (X.encodeHeader roots)).length rest source left

/-- **A whole CAR**: a header of version 1, and complete entries only. -/
def WholeCar (stream : Bytes) (source : Bsst.Source) : Prop := ReadsAs stream 1 source []

omit X in
/-- A read of an entry finds the end of the stream. -/
def AtEnd (left : Bytes) : Prop :=
  readFrame maxAllowedSectionSize left = .error .eof ∨
    readFrame maxAllowedSectionSize left = .error .unexpectedEOF

omit X in
/-- **The stream ends inside of an entry.** -/
def Torn (left : Bytes) : Prop := left ≠ [] ∧ AtEnd left

variable {at_ n v v' : ℕ} {bs left left' stream : Bytes} {source source' : Bsst.Source}
  {e : Err} {r : Except Err Unit}

/-- There is one way to read a stream. -/
theorem Entries.unique (h : Entries at_ bs source left) (h' : Entries at_ bs source' left') :
    source = source' ∧ left = left' := by
  induction h generalizing source' left' with
  | rest hnone =>
    cases h' with
    | rest _ => exact ⟨rfl, rfl⟩
    | entry hread _ _ => exact absurd hread (hnone _)
  | entry hread hcid _ ih =>
    cases h' with
    | rest hnone => exact absurd hread (hnone _)
    | entry hread' hcid' h' =>
      obtain ⟨rfl, rfl⟩ := Prod.mk.inj (Except.ok.inj (hread.symm.trans hread'))
      obtain ⟨-, rfl⟩ := Prod.mk.inj (Option.some.inj (hcid.symm.trans hcid'))
      obtain ⟨rfl, rfl⟩ := ih h'
      exact ⟨rfl, rfl⟩

theorem ReadsAs.unique (h : ReadsAs stream v source left) (h' : ReadsAs stream v' source' left') :
    v = v' ∧ source = source' ∧ left = left' := by
  obtain ⟨hb, rest, roots, hread, hheader, hents⟩ := h
  obtain ⟨hb', rest', roots', hread', hheader', hents'⟩ := h'
  obtain ⟨rfl, rfl⟩ := Prod.mk.inj (Except.ok.inj (hread.symm.trans hread'))
  obtain ⟨rfl, rfl⟩ := Prod.mk.inj (Option.some.inj (hheader.symm.trans hheader'))
  obtain ⟨rfl, rfl⟩ := hents.unique hents'
  exact ⟨rfl, rfl, rfl⟩

/-! ## The listing -/

/-- **The list goes on to what cannot be read**, and the end was reached
when that is where the stream ends. -/
theorem listEntries_eq (hfuel : bs.length < n) (h : Entries at_ bs source left) :
    ∃ ended, listEntries n at_ bs = .ok (source, ended) ∧ (ended = true ↔ AtEnd left) := by
  induction h generalizing n with
  | @rest at_ bs hnone =>
    obtain ⟨n, rfl⟩ : ∃ k, n = k + 1 := ⟨n - 1, by omega⟩
    rw [listEntries]
    cases hread : readFrame maxAllowedSectionSize bs with
    | ok x => exact absurd hread (hnone x)
    | error x => cases x <;> exact ⟨_, rfl, by simp [AtEnd, hread]⟩
  | entry hread hcid _ ih =>
    obtain ⟨n, rfl⟩ : ∃ k, n = k + 1 := ⟨n - 1, by omega⟩
    obtain ⟨ended, heq, hended⟩ := ih (n := n) (by have := length_lt_of_readFrame hread; omega)
    refine ⟨ended, ?_, hended⟩
    rw [listEntries, hread]
    simp only [hcid, heq]
    rfl

/-- A list without an error was read so. -/
theorem entries_of_listEntries {ended : Bool} (hfuel : bs.length < n)
    (h : listEntries n at_ bs = .ok (source, ended)) : ∃ left, Entries at_ bs source left := by
  induction n generalizing at_ bs source ended with
  | zero => omega
  | succ n ih =>
    rw [listEntries] at h
    cases hread : readFrame maxAllowedSectionSize bs with
    | error x =>
      have hnil : source = [] := by
        rw [hread] at h
        cases x <;> exact ((Prod.mk.inj (Except.ok.inj h)).1).symm
      exact ⟨bs, hnil ▸ .rest fun x hx => by simp [hread] at hx⟩
    | ok x =>
      obtain ⟨d, tail⟩ := x
      rw [hread] at h
      cases hcid : X.cidFromBytes d with
      | none => simp [hcid] at h
      | some x =>
        obtain ⟨k, c⟩ := x
        simp only [hcid] at h
        cases hlist : listEntries n (at_ + frameSize d.length) tail with
        | error x =>
          rw [hlist] at h
          exact absurd h (by simp [Except.map])
        | ok l =>
          have hlt := length_lt_of_readFrame hread
          rw [hlist] at h
          have hfuel' : tail.length < n := by omega
          obtain ⟨left, hleft⟩ := ih hfuel' hlist
          obtain ⟨rfl, -⟩ := Prod.mk.inj (Except.ok.inj h)
          exact ⟨left, .entry hread hcid hleft⟩

/-! ## A whole CAR -/

/-- **A listing that read to the end** lists a whole CAR. -/
def ListsWhole (stream : Bytes) (r : Except Err Unit) : Prop :=
  ∀ source stat, listStream stream r = .ok (source, stat) → stat.eof = true → WholeCar stream source

/-- **A reload has not gone on**: the staging storage and `fil.car` are the
same, and the head of an offloaded log is. -/
structure Stalled (w w' : World) : Prop where
  staged : w'.staged = w.staged
  filCar : w'.disk.filCar = w.disk.filCar
  head : w.jb.head = none → w'.disk.head = w.disk.head

/-- A `FinDataReload` of a CAR that is not whole does not go on, and does
not return nil for an offloaded log. -/
def ReloadsWhole (stream : Bytes) : Prop :=
  ∀ (w : World) (car : Bytes) (blkEnts carSz : ℕ) (plan : List Fate),
    w.disk.filCar = some car → car.take carSz = stream → (∀ source, ¬ WholeCar stream source) →
    ((finDataReload blkEnts carSz).run w plan).Sat
      ⟨fun _ w' => w.jb.head ≠ none ∧ Stalled w w', fun _ => Stalled w, Stalled w,
        fun _ => Stalled w⟩

theorem listStream_eq (h : ReadsAs stream v source left) : ∃ ended,
    listStream stream r = .ok (source, ⟨stream.length, ended && endsClean r⟩) ∧
      (ended = true ↔ AtEnd left) := by
  obtain ⟨hb, rest, roots, hread, hheader, hents⟩ := h
  obtain ⟨ended, heq, hended⟩ := listEntries_eq (Nat.lt_succ_self _) hents
  refine ⟨ended, ?_, hended⟩
  rw [listStream, hread]
  simp only [hheader, Nat.succ_eq_add_one] at heq ⊢
  rw [heq]
  rfl

theorem readsAs_of_listStream {stat : StatRead} (h : listStream stream r = .ok (source, stat)) :
    ∃ v left, ReadsAs stream v source left := by
  rw [listStream] at h
  cases hread : readFrame maxAllowedSectionSize stream with
  | error x => simp [hread] at h
  | ok x =>
    obtain ⟨hb, rest⟩ := x
    rw [hread] at h
    cases hheader : X.decodeHeader hb with
    | none => simp [hheader] at h
    | some x =>
      obtain ⟨v, roots⟩ := x
      simp only [hheader] at h
      cases hlist : listEntries (rest.length + 1) (framed (X.encodeHeader roots)).length rest with
      | error x =>
        rw [hlist] at h
        exact absurd h (by simp [Except.map])
      | ok l =>
        obtain ⟨left, hleft⟩ := entries_of_listEntries (Nat.lt_succ_self _) hlist
        rw [hlist] at h
        obtain ⟨rfl, -⟩ := Prod.mk.inj (Except.ok.inj h)
        exact ⟨v, left, hb, rest, roots, hread, hheader, hleft⟩

omit X in
/-- A stream that ends behind an entry is at its end. -/
theorem atEnd_iff : AtEnd left ↔ left = [] ∨ Torn left := by
  refine ⟨fun h => or_iff_not_imp_left.mpr fun hne => ⟨hne, h⟩, ?_⟩
  rintro (rfl | h)
  · exact Or.inl rfl
  · exact h.2

/-- **What the listing makes sure of.** -/
theorem listsWhole_iff : (∀ r, ListsWhole stream r) ↔
    ∀ v source left, ReadsAs stream v source left → (left = [] → v = 1) ∧ ¬ Torn left := by
  constructor
  · intro h v source left hreads
    have hend : AtEnd left → WholeCar stream source := by
      intro hend
      obtain ⟨ended, heq, hended⟩ := listStream_eq (r := .ok ()) hreads
      refine h _ _ _ heq ?_
      rw [hended.mpr hend]
      rfl
    refine ⟨fun hnil => (hreads.unique (hend (atEnd_iff.mpr (Or.inl hnil)))).1, fun htorn => ?_⟩
    exact htorn.1 (hreads.unique (hend htorn.2)).2.2
  · intro h r source stat heq heof
    obtain ⟨v, left, hreads⟩ := readsAs_of_listStream heq
    obtain ⟨hversion, htorn⟩ := h v source left hreads
    obtain ⟨ended, heq', hended⟩ := listStream_eq (r := r) hreads
    rw [heq] at heq'
    rw [(Prod.mk.inj (Except.ok.inj heq')).2, Bool.and_eq_true] at heof
    obtain rfl := (atEnd_iff.mp (hended.mp heof.1)).resolve_right htorn
    obtain rfl := hversion rfl
    exact hreads

/-! ## Reloading -/

/-- The staging storage and `fil.car` are the same. -/
def SameData (w w' : World) : Prop := w'.staged = w.staged ∧ w'.disk.filCar = w.disk.filCar

omit X in
instance : IsPreorder World SameData where
  refl _ := ⟨rfl, rfl⟩
  trans _ _ _ h h' := ⟨h'.1.trans h.1, h'.2.trans h.2⟩

/-- And so is the head. -/
structure SameHead (w w' : World) : Prop where
  data : SameData w w'
  head : w'.disk.head = w.disk.head
  isOpen : w'.jb.head = w.jb.head

omit X in
instance : IsPreorder World SameHead where
  refl _ := ⟨⟨rfl, rfl⟩, rfl, rfl⟩
  trans _ _ _ h h' := ⟨⟨h'.data.1.trans h.data.1, h'.data.2.trans h.data.2⟩, h'.head.trans h.head,
    h'.isOpen.trans h.isOpen⟩

omit X in
theorem SameHead.stalled {w w' : World} (h : SameHead w w') : Stalled w w' :=
  ⟨h.data.1, h.data.2, fun _ => h.head⟩

namespace CarLog

theorem leaves_openBSST {path : BsstPath} : Respects SameHead (openBSST path) := by
  refine Respects.ioRead.wrapErr.bind fun _ => .get fun w => ?_
  rcases path.get w.disk with _ | f <;> dsimp only
  · exact .throw
  rcases Bsst.openFile f with _ | b
  · exact .throw
  · exact .ret

theorem leaves_createBSST {β : Type} {path : BsstPath} {entries : Op ℕ}
    {list : Op (Bsst.Source × β)} (hentries : Respects SameHead entries)
    (hlist : Respects SameHead list) : Respects SameHead (createBSST path entries list) := by
  have hwrite : ∀ x, Respects SameHead (ioWrite (path.set x)) := fun x =>
    .step fun _ => by cases path <;> exact ⟨⟨rfl, rfl⟩, rfl, rfl⟩
  have hsalt : Respects SameHead drawSalt := .put (fun _ => ⟨⟨rfl, rfl⟩, rfl, rfl⟩) fun _ => .ret
  refine hentries.wrapErr.bind fun ents => .wrapErr ((hwrite _).wrapErr.bind fun _ =>
    hsalt.bind fun salt => (hwrite _).wrapErr.bind fun _ => Respects.ioRead.wrapErr.bind fun _ =>
    hlist.wrapErr.bind fun l => ?_)
  obtain ⟨source, extra⟩ := l
  dsimp only
  cases Bsst.buckets salt ents source with
  | error e => exact .fault
  | ok r =>
    exact (hwrite _).wrapErr.bind fun _ => Respects.ioRead.wrapErr.bind fun _ =>
      (hwrite _).wrapErr.bind fun _ => Respects.ioRead.wrapErr.bind fun _ =>
      Respects.ioRead.wrapErr.bind fun _ => leaves_openBSST.wrapErr.bind fun _ => .pure

/-- What the listing has learned comes with the index. -/
theorem wp_createBSST_extra {β : Type} {P : β → Prop} {path : BsstPath} {entries : Op ℕ}
    {list : Op (Bsst.Source × β)} {w : World}
    (hlist : ∀ u, wp anyFate list (.returns fun l _ => P l.2) u) :
    wp anyFate (createBSST path entries list) (.returns fun x _ => P x.2) w := by
  have hany : ∀ {α : Type} {m : Op α} {s : String} {u : World},
      wp anyFate (wrapErr s m) (.returns fun _ _ => True) u := wp_trivial
  have hsalt : ∀ u, wp anyFate drawSalt (.returns fun _ _ => True) u := fun u => wp_trivial
  refine wp_returns_seq hany fun ents t _ => wp_returns_handle ?_
  refine wp_returns_seq hany fun _ t _ => wp_returns_seq (hsalt t) fun salt t _ => ?_
  refine wp_returns_seq hany fun _ t _ => wp_returns_seq hany fun _ t _ => ?_
  refine wp_returns_seq (wp_returns_handle (hlist t)) fun l t hl => ?_
  obtain ⟨source, extra⟩ := l
  dsimp only
  cases Bsst.buckets salt ents source with
  | error e => trivial
  | ok r =>
    refine wp_returns_seq hany fun _ t _ => wp_returns_seq hany fun _ t _ => ?_
    refine wp_returns_seq hany fun _ t _ => wp_returns_seq hany fun _ t _ => ?_
    exact wp_returns_seq hany fun _ t _ => wp_returns_seq hany fun _ t _ => hl

/-- What is listed to its end is whole, and the source has ended. -/
theorem wp_listed {r : Except Err Unit} {P : StatRead → Prop} {w : World}
    (h : ∀ source stat, listStream stream r = .ok (source, stat) → P stat) :
    wp anyFate (match listStream stream r with
      | .error e => .throw e
      | .ok x => .ret x : Op (Bsst.Source × StatRead)) (.returns fun l _ => P l.2) w := by
  cases hlist : listStream stream r with
  | error e => trivial
  | ok x => exact h x.1 x.2 hlist

/-- **A copy of `fil.car`** that is listed to its end is a whole CAR. -/
theorem wp_listCar_copyCar {car : Bytes} {carSz : ℕ} {w : World}
    (h : ∀ r, ListsWhole (car.take carSz) r) : wp anyFate (listCar (copyCar car carSz))
      (.returns fun l _ => l.2.eof = true → ∃ source, WholeCar (car.take carSz) source) w := by
  -- behind an error the end is not seen
  have hfailed : ∀ (stream : Bytes) source (stat : StatRead),
      listStream stream (.error .io) = .ok (source, stat) → stat.eof = true →
        ∃ source, WholeCar (car.take carSz) source := by
    intro stream source stat hlist heof
    obtain ⟨v, left, hreads⟩ := readsAs_of_listStream hlist
    obtain ⟨ended, heq, -⟩ := listStream_eq (r := .error .io) hreads
    rw [hlist] at heq
    rw [(Prod.mk.inj (Except.ok.inj heq)).2] at heof
    simp [endsClean] at heof
  have hdone : ∀ source (stat : StatRead), listStream (car.take carSz) (.ok ()) =
      .ok (source, stat) → stat.eof = true → ∃ source, WholeCar (car.take carSz) source :=
    fun source stat hlist heof => ⟨source, h _ source stat hlist heof⟩
  rw [listCar, wp_bind, captureOutput, wp_bind]
  change wp anyFate (attempt (copyCar car carSz) >>= fun r => .get fun w => .ret (w.out, r)) _ _
  rw [wp_bind, wp_attempt, copyCar, wp_bind, wp_ioRead]
  refine ⟨?_, fun _ => wp_listed (w := { w with out := [] }) (hfailed []), fun _ => trivial⟩
  change wp anyFate (writeOutput (car.take carSz)) _ { w with out := [] }
  refine ⟨wp_listed (w := { w with out := car.take carSz }) hdone, fun n _ => ?_, fun _ => trivial⟩
  exact wp_listed (w := { w with out := (car.take carSz).take n }) (hfailed _)

theorem leaves_listCar_copyCar {car : Bytes} {carSz : ℕ} :
    Respects SameHead (listCar (copyCar car carSz)) := by
  have hcopy : Respects SameHead (copyCar car carSz) := Respects.ioRead.bind fun _ =>
    .io (fun _ => ⟨⟨rfl, rfl⟩, rfl, rfl⟩) (fun _ _ => ⟨⟨rfl, rfl⟩, rfl, rfl⟩)
      fun _ => .either .ret .throw
  refine .bind (.bind (.modify fun _ => ⟨⟨rfl, rfl⟩, rfl, rfl⟩) fun _ => hcopy.tried.bind fun _ =>
    .get fun _ => .ret) fun x => ?_
  obtain ⟨stream, r⟩ := x
  dsimp only
  rcases listStream stream r with _ | x <;> dsimp only
  · exact .throw
  · exact .ret

omit X in
theorem leaves_mutHead {change : Head → Except Err Head} : Respects SameData (mutHead change) := by
  have hread : Respects SameData readHead := .get fun w => by
    rcases w.jb.head with _ | _ | _
    · exact .throw
    · exact .throw
    · refine Respects.ioRead.bind fun _ => ?_
      rcases w.disk.head with _ | _ | h
      · exact .throw
      · exact .throw
      · exact .ret
  refine hread.wrapErr.bind fun h => Respects.failIf.bind fun _ => ?_
  cases change h with
  | error e => exact .throw
  | ok h' =>
    refine .bind (.wrapErr (.io (fun _ => ⟨rfl, rfl⟩) (fun n w => ?_) fun _ => .either .ret .throw))
      fun _ => Respects.ioRead.wrapErr.bind fun _ => .pure
    by_cases hn : n = 0 <;> simp only [modifyDisk, hn, if_true, if_false] <;> exact ⟨rfl, rfl⟩

omit X in
theorem leaves_checkReloaded : Respects SameData checkReloaded := by
  refine leaves_mutHead.wrapErr.bind fun h => Respects.failIf.bind fun _ => .either ?_ .throw
  exact Respects.ioRead.wrapErr.bind fun _ => .get fun _ => .failIf

end CarLog

/-- **A reload goes on with a whole CAR only**, where the listing makes sure
of it. -/
theorem reloadsWhole_of_listsWhole (h : ∀ r, ListsWhole stream r) : ReloadsWhole stream := by
  intro w car blkEnts carSz plan hcar hstream hnone
  subst hstream
  have hlock : Respects SameHead CarLog.lockIdx :=
    .get fun _ => .either (.modify fun _ => ⟨⟨rfl, rfl⟩, rfl, rfl⟩) .fault
  have hunlock : Respects SameHead CarLog.unlockIdx :=
    .get fun _ => .either (.modify fun _ => ⟨⟨rfl, rfl⟩, rfl, rfl⟩) .fault
  have hunlock' : ∀ t, Stalled w t → wp anyFate CarLog.unlockIdx (.always (Stalled w)) t :=
    fun t ht => wp_always_mono (hunlock t) fun u hu =>
      ⟨hu.data.1.trans ht.staged, hu.data.2.trans ht.filCar, fun hw => hu.head.trans (ht.head hw)⟩
  -- with the lock held
  have hlocked : ∀ u, SameHead w u → wp anyFate (CarLog.finDataReloadLocked blkEnts carSz)
      ⟨fun _ t => w.jb.head ≠ none ∧ Stalled w t, fun _ => Stalled w, Stalled w,
        fun _ => Stalled w⟩ u := by
    intro u hu
    rw [CarLog.finDataReloadLocked, wp_get, wp_bind, wp_failIf]
    refine ⟨fun _ => hu.stalled, fun _ => ?_⟩
    by_cases hhead : u.jb.head.isSome
    · have hne : w.jb.head ≠ none := by
        rw [← hu.isOpen]
        exact Option.isSome_iff_ne_none.mp hhead
      have hstalled : ∀ t, SameData u t → Stalled w t := fun t ht =>
        ⟨ht.1.trans hu.data.1, ht.2.trans hu.data.2, fun hw => absurd hw hne⟩
      -- a log that is open is only checked against the staged CAR
      rw [if_pos hhead]
      exact wp_mono (CarLog.leaves_checkReloaded u) (fun _ t ht => ⟨hne, hstalled t ht⟩)
        (fun _ => hstalled) hstalled fun _ => hstalled
    rw [if_neg hhead]
    have hfil : u.disk.filCar = some car := hu.data.2.trans hcar
    simp only [wp_bind, wp_wrapErr, CarLog.openFilCar, wp_ioRead, wp_get, hfil, wp_ret]
    refine ⟨?_, fun _ => hu.stalled, fun _ => hu.stalled⟩
    have hlisted : wp anyFate (createBSST .canon (.ret blkEnts) (listCar (copyCar car carSz)))
        (.returns fun x _ => x.2.eof = true → ∃ source, WholeCar (car.take carSz) source) u :=
      CarLog.wp_createBSST_extra (P := fun stat : StatRead => stat.eof = true → _)
        fun _ => CarLog.wp_listCar_copyCar h
    have hleaves : wp anyFate (createBSST .canon (.ret blkEnts) (listCar (copyCar car carSz)))
        (.always (SameHead w)) u :=
      (CarLog.leaves_createBSST .ret CarLog.leaves_listCar_copyCar).wp_of hu
    refine wp_mono (wp_and hleaves hlisted) ?_ (fun _ _ h => h.1.stalled) (fun _ h => h.1.stalled)
      fun _ _ h => h.1.stalled
    rintro ⟨bss, stat⟩ t ⟨ht, heof⟩
    -- the listing would be whole, and this CAR is not
    have hshort : stat.eof = false := by
      rw [Bool.eq_false_iff]
      intro htrue
      obtain ⟨source, hwhole⟩ := heof htrue
      exact hnone source hwhole
    simp only [wp_modifyJb, wp_failIf]
    exact ⟨fun _ => ⟨ht.data.1, ht.data.2, fun _ => ht.head⟩, fun hne => absurd hshort hne⟩
  refine wp_sound (wp_seq (hlock w) (fun _ u hu => ?_) (fun _ _ h => h.stalled)
    (fun _ h => h.stalled) fun _ _ h => h.stalled) (within_anyFate plan)
  rw [wp_andThen]
  refine wp_mono (hlocked u hu) (fun _ t ht => ?_) (fun _ t ht => hunlock' t ht) (fun _ => id)
    fun _ _ => id
  exact wp_mono (hunlock' t ht.2) (fun _ _ h => ⟨ht.1, h⟩) (fun _ _ => id) (fun _ => id)
    fun _ _ => id

/-- A log of one block, and what may be left behind it. -/
theorem readsAs_block {m : Multihash} {data : Bytes} (hm : ValidMultihash m)
    (hlen : (payload m data).length ≤ maxAllowedSectionSize)
    (hleft : ∀ x, readFrame maxAllowedSectionSize left ≠ .ok x) :
    ReadsAs (headerBytes ++ (framed (payload m data) ++ left)) 1
      [(m, [makeOffsetLen headerBytes.length (payload m data).length])] left := by
  have hmax : maxAllowedSectionSize = 33554432 := rfl
  have hheader : (X.encodeHeader [placeholderCid]).length = 58 :=
    X.length_encodeHeader _ length_placeholderCid
  have hzero : ValidMultihash placeholderCid.hash :=
    ⟨0, List.replicate 32 0, by norm_num, by simp, rfl⟩
  refine ⟨X.encodeHeader [placeholderCid], _, _, readFrame_framed (by omega) (by omega) _,
    X.decodeHeader_encodeHeader _ (Or.inl rfl) hzero length_placeholderCid, ?_⟩
  exact .entry (readFrame_framed hlen (by omega) left)
    (X.cidFromBytes_bytes raw m data (Or.inl rfl) hm) (.rest hleft)

end

section

open Carlog.Encoding

/-- A header, an entry, and the length of another one. -/
def tornCar : Bytes := headerBytes ++ (framed (payload [0, 1, 7] [7]) ++ [6])

end

end Carlog

end Ribs
