import Ribs.Bsst.Filter
/-!
# BSST — what a file denotes

The body of a file is laid out as a sequence of levels, each holding the
keys that did not fit the level above, until none is left. `Layout` says
so without the loops; the writer's loop produces a layout, and a lookup
walks it. What the walk finds is an entry of the level it started from,
and it finds one exactly when there is one.
-/

namespace Ribs

open Common

namespace Bsst

variable {prev lb : ℕ}

/-- The part of a key that the file keeps. -/
abbrev keyBytes (k : Digest) : Bytes := k.1.take entKeyBytes

/-- The kept part of a key decides its first 64 bits. -/
theorem hashIdx_eq {k k' : Digest} (h : keyBytes k = keyBytes k') : hashIdx k = hashIdx k' := by
  have htake : ∀ x : Digest, x.1.take 8 = (keyBytes x).take 8 := fun x => by
    rw [List.take_take]; rfl
  rw [hashIdx, hashIdx, htake, htake, h]

/-- And so its bucket and its bit. -/
theorem bucketInd_eq {k k' : Digest} (h : keyBytes k = keyBytes k') (range prev : ℕ) :
    bucketInd k range prev = bucketInd k' range prev := by
  rw [bucketInd, bucketInd, hashIdx_eq h]

/-! ## Reading a bucket -/

/-- The `p`th of equally long chunks. -/
theorem take_drop_flatten {n : ℕ} {cs : List Bytes} (hcs : ∀ c ∈ cs, c.length = n) {p : ℕ}
    (hp : p < cs.length) (rest : Bytes) :
    ((cs.flatten ++ rest).drop (p * n)).take n = cs[p] := by
  induction cs generalizing p with
  | nil => simp at hp
  | cons c cs ih =>
    have hc : c.length = n := hcs c List.mem_cons_self
    cases p with
    | zero =>
      rw [Nat.zero_mul, List.drop_zero, List.flatten_cons, List.append_assoc,
        List.take_append_of_le_length hc.ge, List.take_of_length_le hc.le]
      rfl
    | succ p =>
      have hoff : (p + 1) * n = c.length + p * n := by rw [hc, Nat.succ_mul, Nat.add_comm]
      rw [List.flatten_cons, List.append_assoc, hoff, List.drop_length_add_append,
        ih (fun c' hc' => hcs c' (List.mem_cons_of_mem _ hc')) (by simpa using hp)]
      rfl

/-- The chunks of a bucket: its entries and its padding. -/
theorem bucketBytes_eq (ks : List MultiHashHash) : bucketBytes prev lb ks =
    (((ks.take bucketUserEntries).map entryBytes) ++
      List.replicate (bucketUserEntries - ks.length) nullEntry).flatten ++
      bloomWith prev lb ks := by
  rw [bucketBytes, storedBytes, List.flatten_append, List.flatMap_def]

theorem drop_bucketBytes (ks : List MultiHashHash) :
    (bucketBytes prev lb ks).drop (bucketUserEntries * entrySize) = bloomWith prev lb ks := by
  rw [bucketBytes, List.drop_left']
  have : (bucketBytes prev lb ks).length = _ := length_bucketBytes ks
  rw [bucketBytes, List.length_append, length_bloomWith] at this
  simp only [bucketSize, bucketUserEntries, entriesPerBucket, bucketHeaderEntries,
    entrySize] at this ⊢
  omega

/-- **A position of a bucket holds its entry**, or nothing. -/
theorem entryAt_bucketBytes (ks : List MultiHashHash) {p : ℕ} (hp : p < bucketUserEntries) :
    entryAt (bucketBytes prev lb ks) p = (ks[p]?.map entryBytes).getD nullEntry := by
  have hlen : ∀ c ∈ ((ks.take bucketUserEntries).map entryBytes) ++
      List.replicate (bucketUserEntries - ks.length) nullEntry, c.length = entrySize := by
    intro c hc
    rcases List.mem_append.mp hc with hc | hc
    · obtain ⟨h, -, rfl⟩ := List.mem_map.mp hc
      exact length_entryBytes h
    · rw [List.eq_of_mem_replicate hc]
      exact length_nullEntry
  rw [entryAt, bucketBytes_eq, take_drop_flatten hlen (by simp; omega)]
  by_cases hk : p < ks.length
  · rw [List.getElem_append_left (by simp; omega)]
    simp [hk]
  · rw [List.getElem_append_right (by simp; omega)]
    simp [hk]

theorem keyBytes_nullEntry : nullEntry.take entKeyBytes = List.replicate entKeyBytes 0 := by
  simp [nullEntry, entKeyBytes, entrySize, bucketSize, entriesPerBucket]

/-- A position that holds a key other than the null key holds an entry
with that key. -/
theorem mem_of_entryAt {ks : List MultiHashHash} {k : Digest}
    (hk : keyBytes k ≠ List.replicate entKeyBytes 0) {p : ℕ} (hp : p < bucketUserEntries)
    (h : (entryAt (bucketBytes prev lb ks) p).take entKeyBytes = keyBytes k) :
    ∃ hlt : p < ks.length, keyBytes ks[p].mhh = keyBytes k ∧
      offAt (bucketBytes prev lb ks) p = ks[p].off := by
  rw [entryAt_bucketBytes ks hp] at h
  by_cases hlt : p < ks.length
  · rw [List.getElem?_eq_getElem hlt, Option.map_some, Option.getD_some, take_entryBytes] at h
    refine ⟨hlt, h, ?_⟩
    rw [offAt, entryAt_bucketBytes ks hp, List.getElem?_eq_getElem hlt, Option.map_some,
      Option.getD_some, off_entryBytes]
  · rw [List.getElem?_eq_none (Nat.not_lt.mp hlt), Option.map_none, Option.getD_none,
      keyBytes_nullEntry] at h
    exact absurd h.symm hk

/-! ## Levels -/

/-- A level: the buckets before it, its own, and the entries it gets. -/
structure Level where
  prev : ℕ
  lb : ℕ
  list : List MultiHashHash

namespace Level

/-- Its bytes. -/
def bytes (l : Level) : Bytes := levelBytes l.prev l.lb l.prev [] l.list

/-- The level below. -/
def next (l : Level) : Level :=
  ⟨l.prev + l.lb, nextLevelBuckets l.lb, levelNext l.prev l.lb l.prev [] l.list⟩

/-- The entries a bucket of the level gets. -/
def bucket (l : Level) (i : ℕ) : List MultiHashHash := keysOf l.prev l.lb l.list i

/-- A level the loops can work on: bucket numbers and bits can be
computed, and its entries come in key order. -/
structure Ready (l : Level) : Prop where
  buckets : 0 < l.lb
  range : bucketRange l.lb / bucketBloomFilterEntries ≠ 0
  sorted : l.list.Pairwise fun a b => hashIdx a.mhh ≤ hashIdx b.mhh

/-- A key is in range at every level that gets entries, from `l` on. -/
def InRange (l : Level) (k : Digest) : Prop :=
  ∀ j, (next^[j] l).list ≠ [] → KeyInRange (next^[j] l).prev (next^[j] l).lb k

theorem InRange.here {l : Level} {k : Digest} (h : l.InRange k) (hl : l.list ≠ []) :
    KeyInRange l.prev l.lb k := h 0 hl

theorem InRange.next {l : Level} {k : Digest} (h : l.InRange k) : l.next.InRange k :=
  fun j => h (j + 1)

variable {l : Level}

theorem mem_next {h : MultiHashHash} : h ∈ l.next.list ↔
    ∃ i, l.prev ≤ i ∧ i < l.prev + l.lb ∧ h ∈ (l.bucket i).drop bucketUserEntries := by
  simp only [next, levelNext, List.mem_flatMap, List.mem_range'_1, bucket]
  refine exists_congr fun i => ?_
  have hrange : l.prev + (l.prev + l.lb - l.prev) = l.prev + l.lb := by omega
  rw [hrange, and_assoc]
  split <;> simp

/-- What a level leaves, it was given. -/
theorem mem_of_mem_next {h : MultiHashHash} (hh : h ∈ l.next.list) : h ∈ l.list := by
  obtain ⟨i, -, -, hi⟩ := mem_next.mp hh
  exact List.mem_of_mem_filter (List.mem_of_mem_drop hi)

/-- **Nothing is lost**: an entry of a level is in the level's bucket for
it, or left for the next level. -/
theorem mem_take_or_mem_next {h : MultiHashHash} (hh : h ∈ l.list)
    (hkey : KeyInRange l.prev l.lb h.mhh) :
    h ∈ (l.bucket (bucketOf l.prev l.lb h)).take bucketUserEntries ∨ h ∈ l.next.list := by
  have hmem : h ∈ l.bucket (bucketOf l.prev l.lb h) :=
    List.mem_filter.mpr ⟨hh, decide_eq_true rfl⟩
  rw [← List.take_append_drop bucketUserEntries (l.bucket _), List.mem_append] at hmem
  exact hmem.imp_right fun hdrop =>
    mem_next.mpr ⟨_, Nat.le_add_right _ _, hkey.bucket, hdrop⟩

/-- **The keys of a level and of the levels below are in range**, each at
the levels it gets to. -/
def KeysInRange (l : Level) : Prop :=
  ∀ j, ∀ h ∈ (next^[j] l).list, KeyInRange (next^[j] l).prev (next^[j] l).lb h.mhh

theorem KeysInRange.here (hl : l.KeysInRange) :
    ∀ h ∈ l.list, KeyInRange l.prev l.lb h.mhh := hl 0

theorem KeysInRange.next (hl : l.KeysInRange) : l.next.KeysInRange := fun j => hl (j + 1)

theorem mem_of_mem_iterate {h : MultiHashHash} {j : ℕ} (hh : h ∈ (Level.next^[j] l).list) :
    h ∈ l.list := by
  induction j generalizing l with
  | zero => exact hh
  | succ j ih => exact mem_of_mem_next (ih hh)

/-- Keys in range at every level are in range where they get to. -/
theorem keysInRange_of_inRange (hkeys : ∀ h ∈ l.list, l.InRange h.mhh) : l.KeysInRange :=
  fun j h hh => hkeys h (mem_of_mem_iterate hh) j (List.ne_nil_of_mem hh)

end Level

/-! ## The writing loop only drops entries -/

/-- What a round of the loop did when the loop ended well. -/
theorem writeLevel_cons_ok {w w' : Writer} {hash : MultiHashHash} {list next : List MultiHashHash}
    (h : writeLevel prev lb w (hash :: list) = .ok (w', next)) :
    bucketRange lb / bucketBloomFilterEntries ≠ 0 ∧
      bloomOf prev lb hash < bucketBloomFilterEntries ∧
      ∃ w₁, w.flushTo (bucketOf prev lb hash) = .ok w₁ ∧
        ((bucketUserEntries ≤ w₁.bucketEnts ∧ ∃ rest, next = hash :: rest ∧
            writeLevel prev lb (w₁.setBloom (bloomOf prev lb hash)) list = .ok (w', rest)) ∨
          writeLevel prev lb ((w₁.setBloom (bloomOf prev lb hash)).writeEntry hash) list =
            .ok (w', next)) := by
  simp only [writeLevel] at h
  rw [← bucketOf, ← bloomOf] at h
  cases hw : w.flushTo (bucketOf prev lb hash) with
  | error e =>
    simp only [hw] at h
    split_ifs at h
  | ok w₁ =>
    simp only [hw] at h
    split_ifs at h with hrange hbloom hfull
    · refine ⟨hrange, by simp only [bucketBloomFilterEntries]; omega, w₁, rfl, Or.inl ⟨hfull, ?_⟩⟩
      cases hrec : writeLevel prev lb (w₁.setBloom (bloomOf prev lb hash)) list with
      | error e => simp [hrec, Except.map] at h
      | ok r =>
        simp only [hrec, Except.map, Except.ok.injEq, Prod.mk.injEq] at h
        exact ⟨r.2, h.2.symm, by rw [← h.1]⟩
    · exact ⟨hrange, by simp only [bucketBloomFilterEntries]; omega, w₁, rfl, Or.inr h⟩

theorem writeLevel_sublist {w w' : Writer} {list next : List MultiHashHash}
    (h : writeLevel prev lb w list = .ok (w', next)) : next.Sublist list := by
  induction list generalizing w next with
  | nil =>
    simp only [writeLevel, Except.ok.injEq, Prod.mk.injEq] at h
    rw [← h.2]
  | cons hash list ih =>
    obtain ⟨-, -, w₁, -, ⟨-, rest, rfl, hrest⟩ | hrest⟩ := writeLevel_cons_ok h
    · exact (ih hrest).cons_cons _
    · exact (ih hrest).cons _

/-- With the open bucket empty, the first entry is written. -/
theorem writeLevel_length {done : Bytes} {i : ℕ} {w' : Writer} {hash : MultiHashHash}
    {list next : List MultiHashHash}
    (h : writeLevel prev lb (openWriter prev lb done i []) (hash :: list) = .ok (w', next)) :
    next.length ≤ list.length := by
  have hempty : ∀ n, (Writer.flushBucket^[n] (openWriter prev lb done i [])).bucketEnts = 0 := by
    intro n
    cases n with
    | zero => rfl
    | succ n => rw [Function.iterate_succ_apply']; rfl
  obtain ⟨-, -, w₁, hflush, ⟨hfull, -⟩ | hrest⟩ := writeLevel_cons_ok h
  · rw [Writer.flushTo] at hflush
    split_ifs at hflush
    rw [← Except.ok.inj hflush, hempty] at hfull
    exact absurd hfull (by decide)
  · exact (writeLevel_sublist hrest).length_le

/-! ## The layout of a file -/

/-- **The levels of a file's body**, until no entry is left. -/
inductive Layout : ℕ → Level → Bytes → Prop where
  | nil {l : Level} : l.list = [] → Layout 0 l []
  | cons {n : ℕ} {l : Level} {rest : Bytes} :
      l.list ≠ [] → Layout n l.next rest → Layout (n + 1) l (l.bytes ++ rest)

theorem nextLevelBuckets_pos {lb : ℕ} (h : 0 < lb) : 0 < nextLevelBuckets lb := by
  simp only [nextLevelBuckets, levelFactor]
  omega

theorem nextLevelBuckets_le {lb : ℕ} (h : 0 < lb) : nextLevelBuckets lb ≤ lb := by
  simp only [nextLevelBuckets, levelFactor]
  omega

/-- One level of the loop. -/
theorem writeLevel_level {l : Level} (hl : l.Ready) (hne : l.list ≠ [])
    (hkeys : ∀ h ∈ l.list, KeyInRange l.prev l.lb h.mhh) (done : Bytes) :
    ∃ w, writeLevel l.prev l.lb (openWriter l.prev l.lb done l.prev []) l.list =
        .ok (w, l.next.list) ∧
      w.flushRest (l.prev + l.lb) =
        openWriter l.next.prev l.next.lb (done ++ l.bytes) l.next.prev [] ∧
      l.next.Ready ∧ l.next.list.length < l.list.length := by
  have hpos := hl.buckets
  obtain ⟨w, hw, hflush⟩ := writeLevel_eq hl.range l.list done l.prev [] (by omega)
    (hl.sorted.imp bucketOf_le) fun h hh => ⟨Nat.le_add_right _ _, hkeys h hh⟩
  refine ⟨w, hw, by rw [hflush]; rfl, ⟨nextLevelBuckets_pos hpos, ?_, ?_⟩, ?_⟩
  · have hle : bucketRange l.lb ≤ bucketRange l.next.lb :=
      Nat.div_le_div_left (nextLevelBuckets_le hpos) (nextLevelBuckets_pos hpos)
    have hdiv : bucketRange l.lb / bucketBloomFilterEntries ≤
        bucketRange l.next.lb / bucketBloomFilterEntries := Nat.div_le_div_right hle
    exact Nat.ne_of_gt (lt_of_lt_of_le (Nat.pos_of_ne_zero hl.range) hdiv)
  · exact hl.sorted.sublist (writeLevel_sublist hw)
  · obtain ⟨hash, list, hlist⟩ := List.exists_cons_of_ne_nil hne
    rw [hlist] at hw
    rw [hlist, Level.next, hlist]
    exact Nat.lt_succ_of_le (writeLevel_length hw)

/-- **The writer lays a file out**, in at most as many levels as there are
entries. -/
theorem writeLevels_layout {l : Level} (hl : l.Ready) (hkeys : l.KeysInRange)
    (fuel level : ℕ) (hfuel : l.list.length ≤ fuel) (done : Bytes) :
    ∃ n w body, writeLevels fuel level l.prev l.lb (openWriter l.prev l.lb done l.prev []) l.list =
        .ok (w, level + n) ∧
      w.out = done ++ body ∧ Layout n l body ∧ n ≤ l.list.length := by
  induction fuel generalizing l level done with
  | zero =>
    have hnil : l.list = [] := List.length_eq_zero_iff.mp (Nat.le_zero.mp hfuel)
    refine ⟨0, openWriter l.prev l.lb done l.prev [], [], ?_, ?_, .nil hnil, Nat.zero_le _⟩
    · rw [hnil, writeLevels, Nat.add_zero]
    · simp [openWriter, storedBytes]
  | succ fuel ih =>
    by_cases hne : l.list = []
    · refine ⟨0, openWriter l.prev l.lb done l.prev [], [], ?_, ?_, .nil hne, Nat.zero_le _⟩
      · rw [hne, writeLevels, Nat.add_zero]
      · simp [openWriter, storedBytes]
    · obtain ⟨w, hw, hflush, hready, hlen⟩ := writeLevel_level hl hne hkeys.here done
      obtain ⟨n, w', body, hrun, hout, hlayout, hn⟩ := ih hready hkeys.next (level + 1)
        (by omega) (done ++ l.bytes)
      refine ⟨n + 1, w', l.bytes ++ body, ?_, by rw [hout, List.append_assoc],
        .cons hne hlayout, by omega⟩
      obtain ⟨hash, list, hlist⟩ := List.exists_cons_of_ne_nil hne
      rw [hlist] at hw ⊢
      rw [writeLevels, if_neg hl.buckets.ne', hw]
      simp only
      rw [hflush, Nat.add_comm n 1, ← Nat.add_assoc]
      exact hrun

end Bsst

end Ribs
