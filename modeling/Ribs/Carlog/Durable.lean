import Ribs.Carlog.Keeps
import Ribs.Carlog.Places
import Ribs.Carlog.Released
/-!
# Carlog — what was committed is found

A log is made, opened, written, committed, viewed, marked read-only and
closed, over any number of lives that end where they end. `Standing` is
what holds of it all the while: the blocks of a `Commit` that returned nil
are among the retired pieces, at places that the index keeps; those put
since are in the stream. A `View` of them is then answered with what was
put.
-/

namespace Ribs

open Common

namespace Carlog

section

variable [X : External]

/-! ## Blocks -/

/-- Not torn. -/
def Piece.Entire : Piece → Prop
  | entry _ _ => True
  | torn bs => bs = []

/-- A piece of a log that is given blocks of `Is` only, and can be read back;
under `W` it is not torn. -/
def Proper (W : Prop) (Is : Multihash → Bytes → Prop) (p : Piece) : Prop :=
  IsPiece Is p ∧ p.Legible ∧ (W → p.Entire)

/-- **The block has its entry in `ps`**, at a place that the index has. -/
def HasPlace (k : ℕ) (ps : List Piece) (b : Block) (w : World) : Prop :=
  ∃ v, EntryIn ps b.hash b.data v ∧ Found k b.hash v w

section

variable {k k' : ℕ} {ps qs : List Piece} {b : Block} {w w' : World}

namespace HasPlace

theorem mono (h : HasPlace k ps b w) (hle : k ≤ k') : HasPlace k' ps b w := by
  obtain ⟨v, hentry, hv⟩ := h
  exact ⟨v, hentry, hv.mono hle⟩

theorem of_isPrefix (h : HasPlace k ps b w) (hpre : ps <+: qs) : HasPlace k qs b w := by
  obtain ⟨v, hentry, hv⟩ := h
  exact ⟨v, hentry.of_isPrefix hpre, hv⟩

theorem congr (h : HasPlace k ps b w) (hsame : w'.disk.levelIndex = w.disk.levelIndex) :
    HasPlace k ps b w' := by
  obtain ⟨v, hentry, hv⟩ := h
  exact ⟨v, hentry, hv.congr hsame⟩

theorem min_unsynced (h : HasPlace k ps b w) : HasPlace (min k (Sys.unsynced w)) ps b w := by
  obtain ⟨v, hentry, hv⟩ := h
  exact ⟨v, hentry, hv.min_unsynced⟩

/-- What is in the index now. -/
theorem unsynced (h : HasPlace k ps b w) : HasPlace (Sys.unsynced w) ps b w := by
  obtain ⟨v, hentry, hv⟩ := h
  obtain ⟨j, hj, -⟩ := id hv
  exact ⟨v, hentry, Found.of_current hj (hv.current hj)⟩

/-- **A place of a retired entry** is below the end of what is retired. -/
theorem stay (h : HasPlace k ps b w) (hsmall : Small ps)
    (hstay : PlacesStay (stream ps).length w w') : HasPlace k ps b w' := by
  obtain ⟨v, hentry, hv⟩ := h
  obtain ⟨off, rfl, hoff, hframe⟩ := hentry.exists_frame hsmall
  refine ⟨_, hentry, hstay _ _ _ ?_ hv⟩
  have hend := hframe.end_le
  have hpos := frameSize_pos (payload b.hash b.data).length
  rw [fst_fromOffsetLen, Nat.mod_eq_of_lt hoff]
  omega

end HasPlace

end

/-! ## The invariant -/

variable {W : Prop} {Is : Multihash → Bytes → Prop} {E : Prop} {F : Fates} {ts ss : List Piece}
  {s : Sys} {w w' : World}

/-- **A log that can be read**, out of its LevelDB index. -/
structure Readable (W : Prop) (Is : Multihash → Bytes → Prop) (E : Prop) (ts ss : List Piece)
    (w : World) : Prop where
  rIdx : ∃ i, w.jb.rIdx = some (.level i)
  eIdx : w.jb.eIdx = none
  index : ∃ j, w.disk.levelIndex = some j
  reads : Reads E False (stream ts) ss w
  le : ts <+: ss
  good : ∀ p ∈ ss, Proper W Is p
  headOpen : w.jb.head = some true
  dataLen : w.jb.dataLen = (stream ss).length
  dataStart : w.jb.dataStart = headerBytes.length
  dataEnd : w.jb.dataEnd = 0

/-- **A log that takes no writes.** What its index knows besides may be gone
from its file. -/
structure Shut (W : Prop) (Is : Multihash → Bytes → Prop) (E : Prop) (ts ss : List Piece)
    (w : World) : Prop where
  wIdx : w.jb.wIdx = none
  disk : ∃ ss', Small ss' ∧ DiskOk (Proper W Is) ts ss' w.disk
  read : CarLog.Off w ∨ Readable W Is E ts ss w

/-- **What holds of a log**, between any two events. -/
inductive Standing (W : Prop) (Is : Multihash → Bytes → Prop) (E : Prop) (s : Sys) : Prop where
  /-- There is none, or it was not made to its end. -/
  | unmade (up : s.isUp = false) (acked : s.acked = []) (committed : s.committed = [])
      (disk : Unmade s.world.disk)
  /-- It is not open. -/
  | down (ts ss : List Piece) (up : s.isUp = false) (acked : s.acked = s.committed)
      (small : Small ss) (disk : DiskOk (Proper W Is) ts ss s.world.disk)
      (kept : ∀ b ∈ s.committed, HasPlace s.mark ts b s.world)
  /-- It is open for writing. -/
  | live (ts ss : List Piece) (up : s.isUp = true) (live : Live (Proper W Is) E False ts ss s.world)
      (acked : ∀ b ∈ s.acked, ∃ k, HasPlace k ss b s.world)
      (kept : ∀ b ∈ s.committed, HasPlace s.mark ts b s.world)
  /-- It is open, and takes no writes. -/
  | shut (ts ss : List Piece) (up : s.isUp = true) (shut : Shut W Is E ts ss s.world)
      (kept : ∀ b ∈ s.committed, HasPlace s.mark ts b s.world)

theorem Live.readable (h : Live (Proper W Is) E False ts ss w) : Readable W Is E ts ss w := by
  obtain ⟨j, hj, -⟩ := h.index
  exact ⟨h.rIdx, h.eIdx, ⟨j, hj⟩, ⟨h.tail, h.lru⟩, h.le, h.good, h.headOpen, h.dataLen, h.dataStart,
    h.dataEnd⟩

namespace Readable

/-- A look at the log. -/
theorem viewed (h : Readable W Is E ts ss w) {cs : List Call} (hviewed : Viewed cs w w')
    (hreads : Reads E False (stream ts) ss w') : Readable W Is E ts ss w' := by
  obtain ⟨_, _, _, _, _, rfl⟩ := hviewed
  exact { h with reads := hreads }

theorem setLk (h : Readable W Is E ts ss w) (lk : RWMutex) : Readable W Is E ts ss (w.setLk lk) :=
  { h with reads := h.reads.congr rfl rfl rfl rfl rfl }

/-- The log takes no more writes. -/
theorem shut (h : Readable W Is E ts ss w) : Readable W Is E ts ss (shut w) :=
  { h with reads := h.reads.congr rfl rfl rfl rfl rfl }

end Readable

namespace Shut

theorem setLk (h : Shut W Is E ts ss w) (lk : RWMutex) : Shut W Is E ts ss (w.setLk lk) :=
  ⟨h.wIdx, h.disk, h.read.imp id fun hr => hr.setLk lk⟩

end Shut

/-- A look at a log open for writing. -/
theorem Live.viewed {G : Piece → Prop} (h : Live G E False ts ss w) {cs : List Call}
    (hviewed : Viewed cs w w') (hreads : Reads E False (stream ts) ss w') :
    Live G E False ts ss w' := by
  obtain ⟨_, _, _, _, _, rfl⟩ := hviewed
  exact { h with tail := hreads.tail, lru := hreads.lru }

/-- A machine that goes down leaves the files of a log. -/
theorem DiskOk.lose {G : Piece → Prop} {d : Disk} (h : DiskOk G ts ss d)
    (keepData keepLevel : ℕ) : DiskOk G ts ss (Sys.lose keepData keepLevel d) := by
  obtain ⟨j, hj, hall⟩ := h.log
  refine { h with
    log := ⟨j.survive keepData, by simp [Sys.lose, hj], hall.survive keepData⟩
    index := ?_ }
  rcases h.index with ⟨hnone, rfl⟩ | ⟨ji, hji, hok⟩
  · exact Or.inl ⟨by simp [Sys.lose, hnone], rfl⟩
  · refine Or.inr ⟨ji.survive keepLevel, by simp [Sys.lose, hji], ?_, ?_⟩
    · exact fun m v hv => hok.indexed m v ((hok.grown.survive keepLevel).current m v hv)
    · exact Journal.all_clean.mpr fun _ _ => id

/-- The data file was written behind what is retired. -/
theorem DiskOk.withLog {G : Piece → Prop} {d : Disk} {j : Journal Bytes} (h : DiskOk G ts ss d)
    (hall : j.All (stream ts <+: ·)) : DiskOk G ts ss { d with blockLog := some j } :=
  { h with log := ⟨j, rfl, hall⟩ }

/-- A look at the log. -/
theorem DiskOk.viewed {G : Piece → Prop} {ps : List Piece} {cs : List Call}
    (h : DiskOk G ts ss w.disk) (hviewed : Viewed cs w w')
    (hreads : Reads E False (stream ts) ps w') : DiskOk G ts ss w'.disk := by
  obtain ⟨j, hlog, hall⟩ := hreads.kept
  obtain ⟨_, _, _, _, _, rfl⟩ := hviewed
  dsimp only at hlog
  rw [hlog]
  exact h.withLog hall

namespace Standing

/-- A log that is open is open for writing, or takes no writes. -/
theorem of_up (h : Standing W Is E s) (hup : s.isUp = true) :
    (∃ ts ss, Live (Proper W Is) E False ts ss s.world ∧
        (∀ b ∈ s.acked, ∃ k, HasPlace k ss b s.world) ∧
        ∀ b ∈ s.committed, HasPlace s.mark ts b s.world) ∨
      ∃ ts ss, Shut W Is E ts ss s.world ∧ ∀ b ∈ s.committed, HasPlace s.mark ts b s.world := by
  rcases h with ⟨up, -, -, -⟩ | ⟨-, -, up, -, -, -, -⟩ | ⟨ts, ss, -, live, acked, kept⟩ |
    ⟨ts, ss, -, shut, kept⟩
  · rw [hup] at up
    exact absurd up (by simp)
  · rw [hup] at up
    exact absurd up (by simp)
  · exact Or.inl ⟨ts, ss, live, acked, kept⟩
  · exact Or.inr ⟨ts, ss, shut, kept⟩

/-- The log is open for writing, still. -/
theorem of_live (hup : s.isUp = true) (hlive : Live (Proper W Is) E False ts ss w')
    (hlevel : SameLevel s.world w') (hacked : ∀ b ∈ s.acked, ∃ k, HasPlace k ss b s.world)
    (hkept : ∀ b ∈ s.committed, HasPlace s.mark ts b s.world) : Standing W Is E (s.moved w') := by
  refine .live ts ss hup hlive (fun x hx => ?_) fun x hx => ?_
  · obtain ⟨k, hk⟩ := hacked x hx
    exact ⟨k, hk.congr hlevel⟩
  · exact ((hkept x hx).congr hlevel).min_unsynced

/-- It takes no writes. -/
theorem of_shut (hup : s.isUp = true) (hshut : Shut W Is E ts ss w') (hlevel : SameLevel s.world w')
    (hkept : ∀ b ∈ s.committed, HasPlace s.mark ts b s.world) : Standing W Is E (s.moved w') :=
  .shut ts ss hup hshut fun x hx => ((hkept x hx).congr hlevel).min_unsynced

/-- What a nil that is not noted leaves. -/
theorem of_moved (hup : s.isUp = true) (h : Standing W Is E (s.moved w')) :
    Standing W Is E { s.moved w' with isUp := true } := by
  rw [← hup]
  exact h

/-- **The process is gone**, and left the files of the log. -/
theorem of_disk {w' : World} (hsmall : Small ss) (hd : DiskOk (Proper W Is) ts ss w'.disk)
    (hkept : ∀ b ∈ s.committed, HasPlace s.mark ts b w') : Standing W Is E (s.down w') :=
  .down ts ss rfl rfl hsmall hd fun b hb => (hkept b hb).min_unsynced.congr rfl

/-- There was no log yet. -/
theorem of_unmade {w' : World} (hcommitted : s.committed = []) (hd : Unmade w'.disk) :
    Standing W Is E (s.down w') := .unmade rfl hcommitted hcommitted hd

end Standing

/-! ## The steps -/

/-- What has to hold of an operation's outcome for the system to be in `I`
behind it. -/
def Leads (I : Sys → Prop) (s : Sys) (cmd : Cmd) : Post World Err Unit where
  ok a w := I (s.after cmd (.ok a w))
  err e w := I (s.after cmd (.err e w))
  crash w := I (s.after cmd (.crash w))
  fault k w := I (s.after cmd (.fault k w))

theorem after_of_wp {I : Sys → Prop} {cmd : Cmd} {plan : List Fate}
    (h : wp F cmd.op (Leads I s cmd) s.world) (hplan : Common.Within F plan) :
    I (s.after cmd (cmd.op.run s.world plan)) := by
  have hsat := wp_sound h hplan
  cases hrun : cmd.op.run s.world plan <;> rw [hrun] at hsat <;> exact hsat

/-- The blocks fit a log: proper multihashes, and lengths that a packed
place says as they are. -/
def Fits (c : List Multihash) (b : List Bytes) : Prop :=
  ∀ x ∈ c.zip b, ValidMultihash x.1 ∧ (payload x.1 x.2).length < 2 ^ 23

section

variable {c : List Multihash} {b : List Bytes}

omit X in
theorem putOk_of_fits (hIs : ∀ x ∈ c.zip b, Is x.1 x.2) (hfits : Fits c b) :
    PutOk (Proper W Is) w c b := by
  rintro j - m d hmem -
  obtain ⟨⟨m', d'⟩, he, heq⟩ := List.mem_map.mp hmem
  obtain ⟨rfl, rfl⟩ := Piece.entry.inj heq
  have hx := (List.mem_filter.mp he).1
  exact ⟨hIs _ hx, hfits _ hx, fun _ => trivial⟩

omit X in
theorem legible_of_proper {ps : List Piece} (h : ∀ p ∈ ps, Proper W Is p) : ∀ p ∈ ps, p.Legible :=
  fun p hp => (h p hp).2.1

/-- **The blocks of a `Put` that returned nil** are in the log. -/
theorem PutDone.holds {j : Journal Index} {t' : Index} {exact : Prop}
    (h : PutDone (Proper W Is) E exact ts ss c b w w' j t')
    (hIs : ∀ x ∈ c.zip b, Is x.1 x.2) (hone : ∀ m d d', Is m d → Is m d' → d = d')
    {x : Block} (hx : x ∈ List.zipWith Block.mk c b) :
    ∃ k, HasPlace k (ss ++ freshEntries j.current c b) x w' := by
  obtain ⟨u, -, hw'⟩ := h.after
  have hlevel : w'.disk.levelIndex = some (j.write t') := by rw [hw']
  obtain ⟨⟨m, d⟩, hmem, rfl⟩ : ∃ e ∈ c.zip b, Block.mk e.1 e.2 = x := by
    rw [← List.map_uncurry_zip_eq_zipWith] at hx
    simpa using hx
  have hshort : ∀ p ∈ ss ++ freshEntries j.current c b, p.Short := by
    intro p hp
    have := (h.live.good p hp).2.1
    cases p with
    | entry m d => exact this.2
    | torn bs => trivial
  -- the index has the block, at the place of some entry for it
  have hsome := h.batched.all m (List.of_mem_zip hmem).1 fun _ _ he => he.ne_neg_one hshort
  obtain ⟨v, hv⟩ := Option.isSome_iff_exists.mp hsome
  have hcur : (j.write t').current[m]? = some v := by rwa [Journal.current_write]
  obtain ⟨d', hentry⟩ := h.batched.ok.indexed m v hcur
  -- which is the one that was put
  have hd' : Is m d' := (h.live.good _ hentry.mem).1
  obtain rfl : d' = d := hone m d' d hd' (hIs _ hmem)
  exact ⟨_, v, hentry, Found.of_current hlevel hcur⟩

/-- Nothing came into the index while the file was written. -/
theorem Live.diskOk_of_level {G : Piece → Prop} {exact : Prop} {es : List Piece}
    (h : Live G E exact ts ss w) (hlevel : w'.disk.levelIndex = w.disk.levelIndex)
    (hd : DiskOk G ts (ss ++ es) w'.disk) : DiskOk G ts ss w'.disk :=
  { hd with
    le := h.le
    good := h.good
    index := Or.inr (by rw [hlevel]; exact h.index) }

/-- **`Put`.** -/
theorem standing_put (hE : Failing F → E) (hone : ∀ m d d', Is m d → Is m d' → d = d')
    (hs : Standing W Is E s) (hup : s.isUp = true) (hsmall : s.world.jb.dataLen ≤ 2 ^ 40)
    (hIs : ∀ x ∈ c.zip b, Is x.1 x.2) (hfits : Fits c b) :
    wp F (Cmd.put c b).op (Leads (Standing W Is E) s (.put c b)) s.world := by
  rcases hs.of_up hup with ⟨ts, ss, live, acked, kept⟩ | ⟨ts, ss, shut, kept⟩
  · have hss : Small ss := by rwa [live.dataLen] at hsmall
    refine wp_mono (CarLog.wp_put hE live (putOk_of_fits hIs hfits)) ?_ ?_ ?_ ?_
    · rintro - w' ⟨j, t', hdone⟩
      refine .live ts _ rfl hdone.live ?_ fun x hx => ?_
      · intro x hx
        rcases List.mem_append.mp hx with hx | hx
        · obtain ⟨k, v, hentry, hv⟩ := acked x hx
          exact ⟨k, v, hentry.append _, hdone.found hv⟩
        · exact hdone.holds hIs hone hx
      · obtain ⟨v, hentry, hv⟩ := kept x hx
        exact HasPlace.min_unsynced ⟨v, hentry, hdone.found hv⟩
    · rintro e w' ⟨⟨_, _, _, _, _, _, rfl⟩, j, es, -, -, hlive⟩
      refine .live ts _ hup hlive (fun x hx => ?_) fun x hx => ?_
      · obtain ⟨k, hk⟩ := acked x hx
        exact ⟨k, (hk.of_isPrefix (List.prefix_append _ _)).congr rfl⟩
      · exact ((kept x hx).congr rfl).min_unsynced
    · rintro w' ⟨hlevel, es, hd⟩
      exact .of_disk hss (live.diskOk_of_level hlevel hd) fun x hx => (kept x hx).congr hlevel
    · rintro k _ rfl
      exact .of_disk hss live.diskOk kept
  · obtain ⟨ss', hsmall', hd⟩ := shut.disk
    refine wp_mono (CarLog.wp_put_none shut.wIdx) (fun _ _ => False.elim) ?_ (fun _ => False.elim)
      ?_
    · rintro e _ ⟨lk, rfl⟩
      exact .shut ts ss hup (shut.setLk lk) fun x hx => ((kept x hx).congr rfl).min_unsynced
    · rintro k _ rfl
      exact .of_disk hsmall' hd kept

end

/-- **`Commit`**, of a log open for writing. -/
theorem standing_commit (hE : Failing F → E) (hs : Standing W Is E s) (hup : s.isUp = true)
    (hsmall : s.world.jb.dataLen ≤ 2 ^ 40) (hwrite : s.world.jb.wIdx.isSome = true) :
    wp F Cmd.commit.op (Leads (Standing W Is E) s .commit) s.world := by
  rcases hs.of_up hup with ⟨ts, ss, live, acked, kept⟩ | ⟨ts, ss, shut, kept⟩
  · have hss : Small ss := by rwa [live.dataLen] at hsmall
    have hmore : ∀ {ts' : List Piece} {x : Block} {k : ℕ} {u : World}, ts' = ts ∨ ts' = ss →
        HasPlace k ts x u → HasPlace k ts' x u := by
      rintro ts' x k u (rfl | rfl) hx
      · exact hx
      · exact hx.of_isPrefix live.le
    change wp F (CarLog.commit >>= fun _ => pure ()) _ _
    rw [wp_bind]
    refine wp_mono (CarLog.wp_commit hE live) ?_ ?_ ?_ ?_
    · rintro n _ ⟨⟨u, x, ⟨_, _, _, _, rfl⟩, rfl⟩, -, hdone⟩
      -- all that was acknowledged is retired
      refine .live ss ss rfl hdone.live (fun y hy => ?_) fun y hy => ?_
      · obtain ⟨k, hk⟩ := acked y hy
        exact ⟨k, hk.congr rfl⟩
      · obtain ⟨k, hk⟩ := acked y hy
        exact HasPlace.unsynced (hk.congr rfl)
    · rintro e _ ⟨⟨u, x, ⟨_, _, _, _, rfl⟩, rfl⟩, ts', hts', hlive⟩
      refine .live ts' ss hup hlive (fun y hy => ?_) fun y hy => ?_
      · obtain ⟨k, hk⟩ := acked y hy
        exact ⟨k, hk.congr rfl⟩
      · exact HasPlace.min_unsynced (hmore hts' ((kept y hy).congr rfl))
    · rintro w' ⟨hlevel, ts', hts', hd⟩
      exact .of_disk hss hd fun y hy => hmore hts' ((kept y hy).congr hlevel)
    · rintro k _ rfl
      exact .of_disk hss live.diskOk kept
  · rw [shut.wIdx] at hwrite
    exact absurd hwrite (by simp)

/-- **`View`.** -/
theorem standing_view (hE : Failing F → E) (hs : Standing W Is E s) (hup : s.isUp = true)
    (hsmall : s.world.jb.dataLen ≤ 2 ^ 40) {c : List Multihash} {cb : Callback} :
    wp F (Cmd.view c cb).op (Leads (Standing W Is E) s (.view c cb)) s.world := by
  -- a crash leaves the files of `ps`
  have hdown : ∀ {ts ps : List Piece}, Small ps → DiskOk (Proper W Is) ts ps s.world.disk →
      (∀ b ∈ s.committed, HasPlace s.mark ts b s.world) → ∀ {w' : World},
        (∃ j, w'.disk = { s.world.disk with blockLog := some j } ∧ j.All (stream ts <+: ·)) →
          Standing W Is E (s.down w') := by
    rintro ts ps hps hd kept w' ⟨jl, hdisk, hall⟩
    refine .of_disk hps (hdisk ▸ hd.withLog hall) fun x hx => ?_
    exact (kept x hx).congr (by rw [hdisk])
  rcases hs.of_up hup with ⟨ts, ss, live, acked, kept⟩ | ⟨ts, ss, shut, kept⟩
  · have hss : Small ss := by rwa [live.dataLen] at hsmall
    obtain ⟨⟨i, hi⟩, hext, ⟨j, hj⟩, hreads, -⟩ := live.readable
    have hcrash := @hdown ts ss hss live.diskOk kept
    refine wp_mono (CarLog.wp_view_any hE hreads hi hext hj) ?_ ?_ (fun _ => hcrash)
      fun _ _ => hcrash
    · rintro - w' ⟨⟨cs, hviewed⟩, hr⟩
      exact .of_moved hup (.of_live hup (live.viewed hviewed hr) hviewed.level acked kept)
    · rintro e w' ⟨⟨cs, hviewed⟩, hr⟩
      exact .of_live hup (live.viewed hviewed hr) hviewed.level acked kept
  · obtain ⟨ss', hsmall', hd⟩ := shut.disk
    have hcrash := @hdown ts ss' hsmall' hd kept
    rcases shut.read with hoff | hread
    · -- nothing is answered, and the files stay
      have hstays : wp F (CarLog.view c cb) (.always fun w' => CarLog.Off w' ∧
          w'.disk = s.world.disk) s.world :=
        wp_fates (fun _ _ => trivial) (wp_always_mono (CarLog.off_view s.world) fun _ h => h hoff)
      have hshut : ∀ {w' : World}, CarLog.Off w' ∧ w'.disk = s.world.disk →
          Standing W Is E (s.moved w') := by
        rintro w' ⟨hoff', hdisk⟩
        have hoffShut : Shut W Is E ts ss w' :=
          ⟨hoff'.1, ⟨ss', hsmall', hdisk ▸ hd⟩, Or.inl hoff'⟩
        exact .of_shut hup hoffShut (congrArg Disk.levelIndex hdisk) kept
      have hgone : ∀ {w' : World}, CarLog.Off w' ∧ w'.disk = s.world.disk →
          Standing W Is E (s.down w') := by
        rintro w' ⟨-, hdisk⟩
        exact .of_disk hsmall' (hdisk ▸ hd) fun x hx => (kept x hx).congr (by rw [hdisk])
      exact wp_mono hstays (fun _ _ h => .of_moved hup (hshut h)) (fun _ _ => hshut)
        (fun _ => hgone) fun _ _ => hgone
    · obtain ⟨⟨i, hi⟩, hext, ⟨j, hj⟩, hreads, -⟩ := id hread
      have hshut : ∀ {cs : List Call} {w' : World}, Viewed cs s.world w' →
          Reads E False (stream ts) ss w' → Standing W Is E (s.moved w') := by
        intro cs w' hviewed hr
        refine .of_shut hup ⟨?_, ⟨ss', hsmall', hd.viewed hviewed hr⟩,
          Or.inr (hread.viewed hviewed hr)⟩ hviewed.level kept
        rw [hviewed.wIdx, shut.wIdx]
      refine wp_mono (CarLog.wp_view_any hE hreads hi hext hj) ?_ ?_ (fun _ => hcrash)
        fun _ _ => hcrash
      · rintro - w' ⟨⟨cs, hviewed⟩, hr⟩
        exact .of_moved hup (hshut hviewed hr)
      · rintro e w' ⟨⟨cs, hviewed⟩, hr⟩
        exact hshut hviewed hr

/-- **`MarkReadOnly`.** -/
theorem standing_markReadOnly (hs : Standing W Is E s) (hup : s.isUp = true)
    (hsmall : s.world.jb.dataLen ≤ 2 ^ 40) :
    wp F Cmd.markReadOnly.op (Leads (Standing W Is E) s .markReadOnly) s.world := by
  rcases hs.of_up hup with ⟨ts, ss, live, acked, kept⟩ | ⟨ts, ss, shut, kept⟩
  · have hss : Small ss := by rwa [live.dataLen] at hsmall
    have hlevel : wp F CarLog.markReadOnly (.always (SameLevel s.world)) s.world :=
      wp_fates (fun _ _ => trivial) (CarLog.sameLevel_markReadOnly s.world)
    refine wp_mono (wp_and (CarLog.wp_markReadOnly live) hlevel) ?_ ?_ ?_ ?_
    · rintro _ _ ⟨⟨u, hu, rfl⟩, hl⟩
      exact .of_moved hup
        (.of_shut hup ⟨rfl, ⟨ss, hss, hu.diskOk⟩, Or.inr hu.readable.shut⟩ hl kept)
    · rintro e w' ⟨hlive, hl⟩
      exact .of_live hup hlive hl acked kept
    · rintro w' ⟨hd, hl⟩
      exact .of_disk hss hd fun x hx => (kept x hx).congr hl
    · rintro k _ ⟨rfl, -⟩
      exact .of_disk hss live.diskOk kept
  · obtain ⟨ss', hsmall', hd⟩ := shut.disk
    refine wp_mono (CarLog.wp_markReadOnly_none shut.wIdx) (fun _ _ => False.elim) ?_
      (fun _ => False.elim) ?_
    · rintro e _ ⟨lk, rfl⟩
      exact .of_shut hup (shut.setLk lk) rfl kept
    · rintro k _ rfl
      exact .of_disk hsmall' hd kept

/-- **`Close`**: what was not committed may be gone. -/
theorem standing_close (hs : Standing W Is E s) (hup : s.isUp = true)
    (hsmall : s.world.jb.dataLen ≤ 2 ^ 40) :
    wp F Cmd.close.op (Leads (Standing W Is E) s .close) s.world := by
  obtain ⟨ts, ps, ss, hps, hd, hext, kept⟩ : ∃ ts ps, ∃ ss : List Piece, Small ps ∧
      DiskOk (Proper W Is) ts ps s.world.disk ∧ s.world.jb.eIdx = none ∧
      ∀ b ∈ s.committed, HasPlace s.mark ts b s.world := by
    rcases hs.of_up hup with ⟨ts, ss, live, -, kept⟩ | ⟨ts, ss, shut, kept⟩
    · exact ⟨ts, ss, ss, by rwa [live.dataLen] at hsmall, live.diskOk, live.eIdx, kept⟩
    · obtain ⟨ss', hsmall', hd⟩ := shut.disk
      exact ⟨ts, ss', ss, hsmall', hd, shut.read.elim (fun h => h.2.2) fun h => h.eIdx, kept⟩
  have hgone : ∀ {u : Sys} {w' : World}, u.committed = s.committed → u.mark = s.mark ∨
      u.mark = min s.mark (Sys.unsynced w') → w'.disk = s.world.disk →
        Standing W Is E (u.down w') := by
    intro u w' hc hmark hdisk
    refine .of_disk hps (hdisk ▸ hd) fun x hx => ?_
    have hx' : HasPlace s.mark ts x w' := (kept x (hc ▸ hx)).congr (by rw [hdisk])
    rcases hmark with hm | hm <;> rw [hm]
    · exact hx'
    · exact hx'.min_unsynced
  refine wp_mono (wp_fates (fun _ _ => trivial) (CarLog.wp_close_off hext)) ?_ ?_ ?_ ?_
  · exact fun _ w' hdisk => hgone (u := { s.moved w' with isUp := true }) rfl (Or.inr rfl) hdisk
  · rintro e w' ⟨hoff, hdisk⟩
    have hoffShut : Shut W Is E ts ss w' := ⟨hoff.1, ⟨ps, hps, hdisk ▸ hd⟩, Or.inl hoff⟩
    exact .of_shut hup hoffShut (congrArg Disk.levelIndex hdisk) kept
  · exact fun w' hdisk => hgone rfl (Or.inl rfl) hdisk
  · exact fun k w' hdisk => hgone rfl (Or.inl rfl) hdisk

/-- A log that is not open is not there, or was made. -/
theorem Standing.of_down (h : Standing W Is E s) (hdown : s.isUp = false) :
    (s.acked = [] ∧ s.committed = [] ∧ Unmade s.world.disk) ∨
      ∃ ts ss, s.acked = s.committed ∧ Small ss ∧ DiskOk (Proper W Is) ts ss s.world.disk ∧
        ∀ b ∈ s.committed, HasPlace s.mark ts b s.world := by
  rcases h with ⟨-, acked, committed, disk⟩ | ⟨ts, ss, -, acked, small, disk, kept⟩ |
    ⟨-, -, up, -, -, -⟩ | ⟨-, -, up, -, -⟩
  · exact Or.inl ⟨acked, committed, disk⟩
  · exact Or.inr ⟨ts, ss, acked, small, disk, kept⟩
  · rw [hdown] at up
    exact absurd up (by simp)
  · rw [hdown] at up
    exact absurd up (by simp)

/-- **`Create`.** -/
theorem standing_create {staging : Bool} (hs : Standing W Is E s) (hdown : s.isUp = false) :
    wp F (Cmd.create staging).op (Leads (Standing W Is E) s (.create staging)) s.world := by
  -- a log that was made is not made again
  have hmade : s.world.disk.indexPath = true → (∀ {w' : World}, w' = s.world →
      Standing W Is E (s.down w')) →
        wp F (Cmd.create staging).op (Leads (Standing W Is E) s (.create staging)) s.world :=
    fun hpath hsame => wp_mono (CarLog.wp_create_made hpath) (fun _ _ => False.elim)
      (fun _ _ => hsame) (fun _ => hsame) fun _ _ => False.elim
  rcases hs.of_down hdown with ⟨acked, committed, hempty | ⟨hpath, hhead⟩⟩ |
    ⟨ts, ss, -, hsmall, hd, kept⟩
  · have hcreating : ∀ {w' : World}, CarLog.Creating w'.disk → Standing W Is E (s.down w') := by
      rintro w' (hun | hlog)
      · exact .of_unmade committed hun
      · have hnil : Small [] := by
          rw [Small, stream_nil, length_headerBytes]
          norm_num
        refine .of_disk hnil (hlog ▸ CarLog.diskOk_emptyLog) fun x hx => ?_
        rw [committed] at hx
        exact absurd hx List.not_mem_nil
    refine wp_mono (CarLog.wp_create hempty) ?_ (fun _ _ => hcreating) (fun _ => hcreating)
      fun _ _ => False.elim
    rintro - _ rfl
    refine .live [] [] rfl (CarLog.live_created rfl rfl) (fun x hx => ?_) fun x hx => ?_
    · have hx' : x ∈ s.acked := hx
      rw [acked] at hx'
      exact absurd hx' List.not_mem_nil
    · have hx' : x ∈ s.committed := hx
      rw [committed] at hx'
      exact absurd hx' List.not_mem_nil
  · refine hmade hpath ?_
    rintro _ rfl
    exact .of_unmade committed (Or.inr ⟨hpath, hhead⟩)
  · refine hmade hd.made ?_
    rintro _ rfl
    exact .of_disk hsmall hd kept

/-- A read-only log that was opened is all retired, and can be read. -/
theorem readable_sealed {staging : Bool} (hd : DiskOk (Proper W Is) ts ss w'.disk)
    (hlog : CarLog.blockLog w' = stream ts) (hindex : w'.disk.levelIndex.isSome = true)
    (hjb : w'.jb = CarLog.sealedAt staging (stream ts).length) : Readable W Is E ts ts w' := by
  obtain ⟨disk, staged, jb, calls, cleaned, out, rand, drawn⟩ := w'
  replace hjb : jb = CarLog.sealedAt staging (stream ts).length := hjb
  subst hjb
  obtain ⟨j, hj, hall⟩ := hd.log
  have hcur : j.current = stream ts := by rw [← hlog, CarLog.blockLog, hj]; rfl
  obtain ⟨ji, hji⟩ := Option.isSome_iff_exists.mp hindex
  exact {
    rIdx := ⟨_, rfl⟩
    eIdx := rfl
    index := ⟨ji, hji⟩
    reads := ⟨⟨j, ⟨true, true, (stream ts).length⟩, ⟨[], none⟩, {
      log := hj
      durable := hall
      data := rfl
      isOpen := rfl
      off := by rw [hcur]
      pos := by rw [hcur]; rfl
      buffered := rfl
      stream := by simp [hcur]
      eq := fun _ => by simp [hcur]
      err := fun he => absurd rfl he }⟩, [], rfl, by simp⟩
    le := List.prefix_rfl
    good := fun p hp => hd.good p (hd.le.subset hp)
    headOpen := rfl
    dataLen := rfl
    dataStart := rfl
    dataEnd := rfl }

omit X in
/-- A piece may always be torn when nothing is said of that. -/
theorem Proper.weaken {p : Piece} (h : Proper W Is p) : Proper False Is p :=
  ⟨h.1, h.2.1, False.elim⟩

/-- What is said of the pieces does not matter to the files. -/
theorem DiskOk.regood {G G' : Piece → Prop} {d : Disk} (h : DiskOk G ts ss d)
    (hgood : ∀ p ∈ ss, G' p) : DiskOk G' ts ss d := { h with good := hgood }

/-- What `Open` left behind the retired pieces is nothing. -/
theorem entire_of_le {rest : List Piece} (htorn : CarLog.Torn rest)
    (hle : (stream (ts ++ rest)).length ≤ (stream ts).length) : ∀ p ∈ rest, p.Entire := by
  intro p hp
  obtain ⟨bs, rfl⟩ := htorn p hp
  have hbytes : bs.length ≤ (rest.flatMap Piece.bytes).length := by
    rw [List.length_flatMap]
    exact List.single_le_sum (fun _ _ => Nat.zero_le _) _
      (List.mem_map.mpr ⟨.torn bs, hp, rfl⟩)
  rw [stream_append, List.length_append] at hle
  exact List.length_eq_zero_iff.mp (by omega)

/-- **An `Open` left nothing in the log** behind what the head says is
retired. -/
def MendedAt (before after : Sys) : Prop := after.isUp = true →
  ∀ h, before.world.disk.head = some (some h) → after.world.jb.dataLen ≤ h.retiredAt

/-- `Open` has read the head. -/
theorem CarLog.wp_openLog_head {staging : Bool} {tc : Option TruncCleanup} :
    wp anyFate (CarLog.openLog staging tc) (.returns fun _ _ => ∃ h, w.disk.head = some (some h))
      w := by
  refine wp_seq CarLog.wp_openHead ?_ (fun _ _ _ => trivial) (fun _ _ => trivial)
    fun _ _ _ => trivial
  rintro h _ ⟨-, hh⟩
  exact wp_mono wp_trivial (fun _ _ _ => ⟨h, hh⟩) (fun _ _ _ => trivial) (fun _ _ => trivial)
    fun _ _ _ => trivial

/-- **`Open`.** -/
theorem standing_openLog {staging : Bool} {tc : Option TruncCleanup} (hs : Standing W Is E s)
    (hdown : s.isUp = false) : wp F (Cmd.openLog staging tc).op
      (Leads (fun s' => (W → MendedAt s s') → Standing W Is E s') s (.openLog staging tc))
      s.world := by
  rcases hs.of_down hdown with ⟨acked, committed, hun⟩ | ⟨ts, ss, acked, hsmall, hd, kept⟩
  · have hnone : ∀ x, s.world.disk.head ≠ some (some x) := by
      rcases hun with hempty | ⟨-, hhead⟩
      · intro x
        rw [hempty]
        simp [Disk.empty]
      · exact hhead
    refine wp_mono (CarLog.wp_openLog_unmade hnone) (fun _ _ => False.elim) ?_ ?_
      fun _ _ => False.elim
    · rintro e _ rfl -
      exact .of_unmade committed hun
    · rintro _ rfl -
      exact .of_unmade committed hun
  · have hts : Small ts := (stream_isPrefix hd.le).length_le.trans hsmall
    have hG : ∀ bs, Proper False Is (.torn bs) := fun _ => ⟨trivial, trivial, False.elim⟩
    have hweak : DiskOk (Proper False Is) ts ss s.world.disk :=
      hd.regood fun p hp => (hd.good p hp).weaken
    -- what an `Open` that fails leaves
    have hleft : ∀ {w' : World}, Left (Proper False Is) ts ss w'.disk →
        PlacesStay (stream ts).length s.world w' → Standing W Is E (s.down w') := by
      rintro w' ⟨ss', hle, hd'⟩ hstay
      exact .of_disk ((stream_isPrefix hle).length_le.trans hsmall)
        (hd'.regood fun p hp => hd.good p (hle.subset hp)) fun x hx => (kept x hx).stay hts hstay
    have hindex : wp anyFate (CarLog.openLog staging tc) _ _ := CarLog.wp_openLog_index hd
    have hopened := wp_fates (G := F) (F := anyFate) (fun _ _ => trivial)
      (wp_and hindex CarLog.wp_openLog_head)
    refine wp_mono (wp_and (CarLog.wp_openLog (E := E) False staging tc hG hsmall hweak) hopened)
      ?_ (fun _ _ h _ => hleft h.1 h.2.1) (fun _ h _ => hleft h.1 h.2.1) fun _ _ h => h.1.elim
    rintro _ w' ⟨⟨rest, htorn, hlive⟩ | ⟨hnone, hd'⟩, ⟨hstay, hread⟩, hd₀, hhead⟩ hmended
    · -- under `W` nothing is behind the retired pieces
      have hgood : ∀ p ∈ ts ++ rest, Proper W Is p := by
        intro p hp
        refine ⟨(hlive.good p hp).1, (hlive.good p hp).2.1, fun hW => ?_⟩
        rcases List.mem_append.mp hp with hts' | hrest
        · exact (hd.good p (hd.le.subset hts')).2.2 hW
        · have hle := hmended hW rfl hd₀ hhead
          rw [hd.head hd₀ hhead] at hle
          have hle' : (stream (ts ++ rest)).length ≤ (stream ts).length := by
            rw [← hlive.dataLen]
            exact hle
          exact entire_of_le htorn hle' p hrest
      replace hlive : Live (Proper W Is) E False ts (ts ++ rest) w' := { hlive with good := hgood }
      refine .live ts (ts ++ rest) rfl hlive (fun x hx => ?_) fun x hx => ?_
      · have hx' : x ∈ s.acked := hx
        rw [acked] at hx'
        exact ⟨_, ((kept x hx').stay hts hstay).of_isPrefix (List.prefix_append _ _)⟩
      · exact ((kept x hx).stay hts hstay).min_unsynced
    · obtain ⟨hblock, hindex, hlen, staging', hjb⟩ := hread hnone
      -- the file is as long as what is retired, and begins with it
      have hlog : CarLog.blockLog w' = stream ts := by
        obtain ⟨j, hj, hall⟩ := hd.log
        have hcur : CarLog.blockLog s.world = j.current := by rw [CarLog.blockLog, hj]; rfl
        rw [CarLog.blockLog, hblock, hj]
        rw [hcur] at hlen
        exact (hall.current.eq_of_length hlen.symm).symm
      have hd' : DiskOk (Proper W Is) ts ss w'.disk := hd'.regood hd.good
      refine .shut ts ts rfl ⟨hnone, ⟨ss, hsmall, hd'⟩, Or.inr ?_⟩ fun x hx => ?_
      · exact readable_sealed hd' hlog hindex hjb
      · exact ((kept x hx).stay hts hstay).min_unsynced

/-! ## Runs -/

/-- The operations of a log that is not finalized. -/
def Cmd.Plain : Cmd → Prop
  | create _ | openLog _ _ | put _ _ | commit | view _ _ | markReadOnly | close => True
  | _ => False

/-- **What a run asks of its events.** -/
structure Orderly (F : Fates) (s : Sys) (e : Event) : Prop where
  /-- The log stays within the reach of an offset. -/
  small : s.isUp = true → s.world.jb.dataLen ≤ 2 ^ 40
  plain : ∀ cmd plan, e = .call cmd plan → cmd.Plain ∧ Common.Within F plan
  fits : ∀ c b plan, e = .call (.put c b) plan → Fits c b
  /-- A log that takes no writes is not committed: that returns nil too. -/
  writable : ∀ plan, e = .call .commit plan → s.isUp = true → s.world.jb.wIdx.isSome = true
  /-- A machine that goes down keeps the index writes that were made when
  the last `Commit` returned. -/
  keeps : ∀ keepData keepLevel, e = .reboot keepData keepLevel → s.mark ≤ keepLevel

omit X in
theorem Orderly.of_call {cmd : Cmd} {plan : List Fate}
    (hsmall : s.isUp = true → s.world.jb.dataLen ≤ 2 ^ 40) (hplain : cmd.Plain)
    (hplan : Common.Within F plan) (hfits : ∀ c b, cmd = .put c b → Fits c b)
    (hwrite : cmd = .commit → s.isUp = true → s.world.jb.wIdx.isSome = true) :
    Orderly F s (.call cmd plan) where
  small := hsmall
  plain := by
    rintro _ _ ⟨⟩
    exact ⟨hplain, hplan⟩
  fits := by
    rintro c b _ ⟨⟩
    exact hfits c b rfl
  writable := by
    rintro _ ⟨⟩
    exact hwrite rfl
  keeps := fun _ _ h => by cases h

omit X in
theorem Orderly.of_kill (hsmall : s.isUp = true → s.world.jb.dataLen ≤ 2 ^ 40) :
    Orderly F s .kill where
  small := hsmall
  plain := fun _ _ h => by cases h
  fits := fun _ _ _ h => by cases h
  writable := fun _ h => by cases h
  keeps := fun _ _ h => by cases h

omit X in
theorem Orderly.anyFate {e : Event} (h : Orderly F s e) : Orderly anyFate s e :=
  { h with plain := fun cmd plan he => ⟨(h.plain cmd plan he).1, within_anyFate plan⟩ }

/-- The block was handed to a `Put` of the run, for the multihash. -/
def Handed (es : List Event) (m : Multihash) (d : Bytes) : Prop :=
  ∃ c b plan, .call (.put c b) plan ∈ es ∧ (m, d) ∈ c.zip b

/-- **No `Open` leaves a torn end in the log.** -/
def Mended (s : Sys) (e : Event) : Prop := ∀ staging tc plan, e = .call (.openLog staging tc) plan →
  s.isUp = false → MendedAt s (s.next e)

namespace Standing

/-- The process dies. -/
theorem kill (hs : Standing W Is E s) (hsmall : s.isUp = true → s.world.jb.dataLen ≤ 2 ^ 40) :
    Standing W Is E (s.next .kill) := by
  rcases hs with ⟨-, -, committed, disk⟩ | ⟨ts, ss, -, -, small, disk, kept⟩ |
    ⟨ts, ss, hup, live, -, kept⟩ | ⟨ts, ss, -, shut, kept⟩
  · exact .of_unmade committed disk
  · exact .of_disk small disk kept
  · exact .of_disk (by rw [Small, ← live.dataLen]; exact hsmall hup) live.diskOk kept
  · obtain ⟨ss', hsmall', hd⟩ := shut.disk
    exact .of_disk hsmall' hd kept

/-- **The machine goes down**, and the index keeps what it had when the last
`Commit` returned. -/
theorem reboot (hs : Standing W Is E s) (hsmall : s.isUp = true → s.world.jb.dataLen ≤ 2 ^ 40)
    {keepData keepLevel : ℕ} (hmark : s.mark ≤ keepLevel) :
    Standing W Is E (s.next (.reboot keepData keepLevel)) := by
  have hlose : ∀ {ts ps : List Piece}, Small ps → DiskOk (Proper W Is) ts ps s.world.disk →
      (∀ b ∈ s.committed, HasPlace s.mark ts b s.world) →
        Standing W Is E (s.next (.reboot keepData keepLevel)) := by
    refine fun hps hd kept => .of_disk hps (hd.lose keepData keepLevel) fun x hx => ?_
    obtain ⟨v, hentry, hv⟩ := kept x hx
    exact ⟨v, hentry, (hv.lose hmark).mono (Nat.zero_le _)⟩
  rcases hs with ⟨-, -, committed, hempty | ⟨hpath, hhead⟩⟩ | ⟨ts, ss, -, -, small, disk, kept⟩ |
    ⟨ts, ss, hup, live, -, kept⟩ | ⟨ts, ss, -, shut, kept⟩
  · refine .of_unmade committed (Or.inl ?_)
    show Sys.lose keepData keepLevel s.world.disk = .empty
    rw [hempty]
    rfl
  · exact .of_unmade committed (Or.inr ⟨hpath, hhead⟩)
  · exact hlose small disk kept
  · exact hlose (by rw [Small, ← live.dataLen]; exact hsmall hup) live.diskOk kept
  · obtain ⟨ss', hsmall', hd⟩ := shut.disk
    exact hlose hsmall' hd kept

/-- **Every event keeps it.** -/
theorem next (hE : Failing F → E) (hone : ∀ m d d', Is m d → Is m d' → d = d') {e : Event}
    (hs : Standing W Is E s) (h : Orderly F s e) (hmended : W → Mended s e)
    (hIs : ∀ c b plan, e = .call (.put c b) plan → ∀ x ∈ c.zip b, Is x.1 x.2) :
    Standing W Is E (s.next e) := by
  cases e with
  | kill => exact hs.kill h.small
  | reboot keepData keepLevel => exact hs.reboot h.small (h.keeps _ _ rfl)
  | call cmd plan =>
    obtain ⟨hplain, hplan⟩ := h.plain cmd plan rfl
    simp only [Sys.next]
    split_ifs with hdoes
    · rcases hdoes with ⟨hstarts, hdown⟩ | ⟨hstarts, hup⟩
      · cases cmd with
        | create staging => exact after_of_wp (standing_create hs hdown) hplan
        | openLog staging tc =>
          refine after_of_wp (standing_openLog hs hdown) hplan fun hW hup => ?_
          have hmend := hmended hW staging tc plan rfl hdown
          rw [Sys.next, if_pos (Or.inl ⟨hstarts, hdown⟩)] at hmend
          exact hmend hup
        | _ => exact absurd hstarts id
      · have hsmall := h.small hup
        cases cmd with
        | put c b =>
          exact after_of_wp (standing_put hE hone hs hup hsmall (hIs _ _ _ rfl) (h.fits _ _ _ rfl))
            hplan
        | commit =>
          exact after_of_wp (standing_commit hE hs hup hsmall (h.writable _ rfl hup)) hplan
        | view c cb => exact after_of_wp (standing_view hE hs hup hsmall) hplan
        | markReadOnly => exact after_of_wp (standing_markReadOnly hs hup hsmall) hplan
        | close => exact after_of_wp (standing_close hs hup hsmall) hplan
        | create _ => exact absurd trivial hstarts
        | openLog _ _ => exact absurd trivial hstarts
        | _ => exact absurd hplain id
    · exact hs

/-- Where a log's life begins. -/
theorem start : Standing W Is E (Sys.start w) := .unmade rfl rfl rfl (Or.inl rfl)

end Standing

/-- What holds of each event besides. -/
theorem Sys.Always.and_mem {C : Sys → Event → Prop} {P : Event → Prop} {es : List Event}
    (h : s.Always C es) (hP : ∀ e ∈ es, P e) : s.Always (fun s e => C s e ∧ P e) es := by
  induction es generalizing s with
  | nil => trivial
  | cons e es ih =>
    exact ⟨⟨h.1, hP e List.mem_cons_self⟩, ih h.2 fun x hx => hP x (List.mem_cons_of_mem _ hx)⟩

theorem Sys.Always.and {C C' : Sys → Event → Prop} {es : List Event} (h : s.Always C es)
    (h' : s.Always C' es) : s.Always (fun s e => C s e ∧ C' s e) es := by
  induction es generalizing s with
  | nil => trivial
  | cons e es ih => exact ⟨⟨h.1, h'.1⟩, ih h.2 h'.2⟩

theorem Sys.Always.imp {C C' : Sys → Event → Prop} {es : List Event} (h : s.Always C es)
    (himp : ∀ s e, C s e → C' s e) : s.Always C' es := by
  induction es generalizing s with
  | nil => trivial
  | cons e es ih => exact ⟨himp s e h.1, ih h.2⟩

/-- **What a run keeps.** -/
theorem standing_run (hE : Failing F → E) {es : List Event}
    (hone : ∀ m d d', Handed es m d → Handed es m d' → d = d')
    (h : (Sys.start w).Always (fun s e => Orderly F s e ∧ (W → Mended s e)) es) :
    Standing W (Handed es) E ((Sys.start w).run es) := by
  have hall := h.and_mem (P := fun e => ∀ c b plan, e = .call (.put c b) plan →
    ∀ x ∈ c.zip b, Handed es x.1 x.2) fun e he c b plan heq x hx => ⟨c, b, plan, heq ▸ he, hx⟩
  exact Sys.run_invariant (fun s e hs hC => hs.next hE hone hC.1.1 hC.1.2 hC.2) Standing.start hall

/-! ## What is found -/

/-- **A `View` that makes these calls**, in order. It fails only when one of
its steps does, or the callback, and the calls up to there are made. -/
structure Delivered (cb : Callback) (plan : List Fate) (calls : List Call) (w : World)
    (o : Outcome World Err Unit) : Prop where
  ok : ∀ w', o = .ok () w' → w'.calls = w.calls ++ calls
  err : ∀ e w', o = .err e w' → ((∃ n, .fail n ∈ plan) ∨ ∃ c ∈ calls, cb c ≠ none) ∧
    ∃ cs, cs <+: calls ∧ w'.calls = w.calls ++ cs
  crash : ∀ w', o = .crash w' → .die ∈ plan ∧ ∃ cs, cs <+: calls ∧ w'.calls = w.calls ++ cs
  fault : ∀ k w', o ≠ .fault k w'

omit X in
theorem Viewed.calls {cs : List Call} (h : Viewed cs w w') : w'.calls = w.calls ++ cs := by
  obtain ⟨_, _, _, _, _, rfl⟩ := h
  rfl

/-- The buffer may have stopped for another reason. -/
theorem Reads.imp {E' exact : Prop} {T : Bytes} (h : Reads E exact T ss w) (himp : E → E') :
    Reads E' exact T ss w := by
  obtain ⟨j, f, b, ht⟩ := h.tail
  exact ⟨⟨j, f, b, { ht with err := fun he => himp (ht.err he) }⟩, h.lru⟩

omit X in
/-- A plan allows its own fates. -/
theorem within_self (plan : List Fate) : Common.Within (fun x => x ∈ plan) plan :=
  fun _ hx => Or.inr hx

/-- **`View` of a log that can be read**: what is to be found is in the file
already, or the flush of the buffer fails for no other reason than its
steps. -/
theorem Readable.delivered (h : Readable W Is E ts ss w) (hlk : w.jb.idxLk.writer = false)
    (hsmall : Small ss) {c : List Multihash} {as : List (Option Bytes)} {j : Journal Index}
    (hj : w.disk.levelIndex = some j) (has : List.Forall₂ (Answers ss j.current) c as)
    (hwhy : ¬ E ∨ ∀ p, w.jb.dataPos = some p → ∀ m ∈ c, ∀ v, j.current[m]? = some v → Filed p v)
    (cb : Callback) (plan : List Fate) :
    Delivered cb plan (answerCalls 0 as) w ((Cmd.view c cb).op.run w plan) := by
  obtain ⟨⟨i, hi⟩, hext, -, hreads, -, hgood, -⟩ := h
  obtain ⟨jl, f, b, ht⟩ := id hreads.tail
  -- the buffer stopped before, or one of these steps fails
  have hfiled : (E ∨ Failing fun x => x ∈ plan) → (Failing fun x => x ∈ plan) ∨
      ∀ m ∈ c, ∀ v, j.current[m]? = some v → Filed jl.current.length v := by
    rintro (he | hf)
    · exact Or.inr (hwhy.resolve_left (not_not.mpr he) _ ht.pos)
    · exact Or.inl hf
  have hview : wp (fun x => x ∈ plan) (CarLog.view c cb) _ _ := CarLog.wp_view Or.inr hsmall
    (legible_of_proper hgood) (hreads.imp Or.inl) hi hext hj hlk has ht.pos hfiled
  have hsat := wp_sound hview (within_self plan)
  change Delivered cb plan _ w ((CarLog.view c cb).run w plan)
  refine ⟨fun w' hrun => ?_, fun e w' hrun => ?_, fun w' hrun => ?_, fun k w' hrun => ?_⟩
  · rw [hrun] at hsat
    exact hsat.1.calls
  · rw [hrun] at hsat
    obtain ⟨hfail, -, cs, hcs, hviewed⟩ := hsat
    refine ⟨?_, cs, hcs, hviewed.calls⟩
    rcases hfail with hf | hf | hc
    · exact Or.inl hf
    · exact Or.inl hf
    · exact Or.inr hc
  · have hdie := Prog.die_mem_of_run hrun
    rw [hrun] at hsat
    exact ⟨hdie, hsat.1⟩
  · rw [hrun] at hsat
    exact hsat

/-- The locks are free between the events of such a run. -/
theorem locks_free {es : List Event} (h : (Sys.start w).Always (Orderly F) es) :
    ((Sys.start w).run es).world.locks = .free := by
  have hremembers : (Sys.start w).Always Remembers es := by
    generalize Sys.start w = s at h
    induction es generalizing s with
    | nil => trivial
    | cons e es ih =>
      refine ⟨?_, ih _ h.2⟩
      cases e with
      | call cmd plan =>
        have hplain := (h.1.plain cmd plan rfl).1
        cases cmd <;> first | exact id | exact absurd hplain id
      | kill => trivial
      | reboot _ _ => trivial
  exact locks_run rfl hremembers

end

section

open Encoding
open scoped Bsst.Encoding

/-- A block is put and committed, and the process dies. -/
def committedOnce : List Event :=
  [.call (.create false) [], .call (.put [[0, 1, 7]] [[7]]) [], .call .commit [], .kill,
    .call (.openLog false (some fun _ _ => none)) []]

theorem handed_once {m : Multihash} {d : Bytes} (h : Handed committedOnce m d) :
    m = [0, 1, 7] ∧ d = [7] := by
  obtain ⟨c, b, plan, hmem, hx⟩ := h
  simp only [committedOnce, List.mem_cons, Event.call.injEq, Cmd.put.injEq, reduceCtorEq, false_and,
    false_or, or_false, List.not_mem_nil] at hmem
  obtain ⟨⟨rfl, rfl⟩, -⟩ := hmem
  simpa using hx

theorem orderly_once : (Sys.start .empty).Always (Orderly mortal) committedOnce := by
  have hfits : Fits [[0, 1, 7]] [[7]] := by
    intro x hx
    obtain rfl : x = ([0, 1, 7], [7]) := by simpa using hx
    exact ⟨validMultihash_seven, by decide⟩
  refine ⟨.of_call (by decide +kernel) trivial within_nil (by simp) (by simp),
    .of_call (by decide +kernel) trivial within_nil ?_ (by simp),
    .of_call (by decide +kernel) trivial within_nil (by simp) (fun _ _ => by decide +kernel),
    .of_kill (by decide +kernel),
    .of_call (by decide +kernel) trivial within_nil (by simp) (by simp), trivial⟩
  rintro c b ⟨⟩
  exact hfits

theorem one_handed {m : Multihash} {d d' : Bytes} (h : Handed committedOnce m d)
    (h' : Handed committedOnce m d') : d = d' := (handed_once h).2.trans (handed_once h').2.symm

end

end Carlog

end Ribs
