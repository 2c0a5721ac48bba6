import Ribs.Carlog.Encoding
import Ribs.Carlog.Keeps
import Ribs.Carlog.Partial
import Ribs.Common.Runs
/-!
# Carlog — each block once

`Put` leaves out the blocks that the index has, and it asks the index once,
before it appends anything; the index is written when all is appended. So a
batch that has a block twice appends it twice, and a `Put` that stops
part-way has appended blocks that the index does not know of.
-/

namespace Ribs

open Common

namespace Carlog

open CarLog (LogEntry put)

/-! ## Hashes and keys -/

/-- The multihashes of the entries. -/
def hashes (ps : List Piece) : List Multihash := (ps.filterMap Piece.block?).map Prod.fst

theorem hashes_append (ps qs : List Piece) : hashes (ps ++ qs) = hashes ps ++ hashes qs := by
  simp [hashes]

theorem mem_hashes {ps : List Piece} {m : Multihash} :
    m ∈ hashes ps ↔ ∃ d, .entry m d ∈ ps := by
  simp only [hashes, List.mem_map, List.mem_filterMap, Prod.exists, exists_and_right,
    exists_eq_right]
  constructor
  · rintro ⟨d, p, hp, hb⟩
    cases p with
    | entry m' d' =>
      obtain ⟨rfl, rfl⟩ := Prod.mk.inj (Option.some.inj hb)
      exact ⟨_, hp⟩
    | torn b => exact absurd hb (by simp [Piece.block?])
  · rintro ⟨d, hp⟩
    exact ⟨d, _, hp, rfl⟩

/-- The index, or an empty one. -/
def index (w : World) : Index := (w.disk.levelIndex.map Journal.current).getD ∅

/-- What a `Put` is to append. -/
def fresh (w : World) (c : List Multihash) (b : List Bytes) : List Piece :=
  freshEntries (index w) c b

theorem index_eq {w : World} {j : Journal Index} (hj : w.disk.levelIndex = some j) :
    index w = j.current := by
  rw [index, hj]
  rfl

theorem mem_hashes_fresh {w : World} {c : List Multihash} {b : List Bytes} {m : Multihash}
    (hlen : c.length = b.length) : m ∈ hashes (fresh w c b) ↔ m ∈ c ∧ m ∉ index w := by
  rw [mem_hashes]
  simp only [fresh, freshEntries, List.mem_map, List.mem_filter, Prod.exists]
  constructor
  · rintro ⟨d, m', d', ⟨hmem, hnot⟩, heq⟩
    obtain ⟨rfl, rfl⟩ := Piece.entry.inj heq
    refine ⟨(List.of_mem_zip hmem).1, fun hm => ?_⟩
    rw [Std.TreeMap.contains_iff_mem.mpr hm] at hnot
    exact absurd hnot (by simp)
  · rintro ⟨hmem, hnot⟩
    rw [← List.map_fst_zip (by omega : c.length ≤ b.length), List.mem_map] at hmem
    obtain ⟨⟨m', d⟩, hmem, rfl⟩ := hmem
    refine ⟨d, _, d, ⟨hmem, ?_⟩, rfl⟩
    rw [Bool.not_eq_true', ← Bool.not_eq_true, Std.TreeMap.contains_iff_mem]
    exact hnot

/-! ## Each block once -/

section

variable [X : External]

/-- **Each block once**: no two entries of the log have one multihash, and
there are as many as in the index. -/
structure Once (w : World) : Prop where
  distinct : ((logEntries w).map fun e => e.cid.hash).Nodup
  counted : (logEntries w).length = (index w).size

variable {ts ss : List Piece} {w w' : World} {c : List Multihash} {b : List Bytes}

theorem Live.map_hash {G : Piece → Prop} {E exact : Prop} (h : Live G E exact ts ss w)
    (hwhole : ∀ p ∈ ss, p.Whole) : (logEntries w).map (fun e => e.cid.hash) = hashes ss := by
  rw [hashes, ← h.map_block hwhole, List.map_map]
  rfl

/-- A writable log whose index has the blocks of its entries, each of which
stands there once. -/
structure OnceIn (ts ss : List Piece) (w : World) : Prop where
  live : Live Piece.Whole True False ts ss w
  distinct : (hashes ss).Nodup
  keys : ∀ m : Multihash, m ∈ index w ↔ m ∈ hashes ss

omit X in
/-- As many entries as keys. -/
theorem size_eq {t : Index} {l : List Multihash} (hl : l.Nodup)
    (h : ∀ m : Multihash, m ∈ t ↔ m ∈ l) :
    l.length = t.size := by
  rw [← Std.TreeMap.length_keys]
  refine ((List.perm_ext_iff_of_nodup hl Std.TreeMap.nodup_keys).mpr fun m => ?_).length_eq
  rw [Std.TreeMap.mem_keys, h]

namespace OnceIn

theorem once (h : OnceIn ts ss w) : Once w := by
  have hhash := h.live.map_hash h.live.good
  refine ⟨by rw [hhash]; exact h.distinct, ?_⟩
  rw [← size_eq h.distinct h.keys, ← hhash, List.length_map]

/-- **A log in which each block stands once** has no other blocks in its
index. -/
theorem of_once (hlive : Live Piece.Whole True False ts ss w) (h : Once w) : OnceIn ts ss w := by
  have hhash := hlive.map_hash hlive.good
  have hnodup : (hashes ss).Nodup := hhash ▸ h.distinct
  obtain ⟨j, hj, hok⟩ := hlive.index
  have hsub : ∀ m : Multihash, m ∈ index w → m ∈ hashes ss := fun m hm => by
    rw [index_eq hj] at hm
    obtain ⟨v, hv⟩ := Std.TreeMap.mem_iff_isSome_getElem?.mp hm |> Option.isSome_iff_exists.mp
    obtain ⟨d, hd⟩ := hok.indexed m v hv
    exact mem_hashes.mpr ⟨d, hd.mem⟩
  refine ⟨hlive, hnodup, fun m => ⟨hsub m, fun hm => ?_⟩⟩
  -- as many keys as hashes, so they are the same
  have hsize : (hashes ss).length = (index w).keys.length := by
    rw [Std.TreeMap.length_keys, ← h.counted, ← hhash, List.length_map]
  have hperm : (index w).keys.Perm (hashes ss) :=
    (List.subperm_of_subset Std.TreeMap.nodup_keys fun m hm =>
      hsub m (Std.TreeMap.mem_keys.mp hm)).perm_of_length_le hsize.le
  exact Std.TreeMap.mem_keys.mp (hperm.mem_iff.mpr hm)

/-- Behind a `Put` that returned nil. -/
theorem put {j : Journal Index} {t' : Index} (h : OnceIn ts ss w)
    (hdone : PutDone Piece.Whole True False ts ss c b w w' j t')
    (hdistinct : (hashes (fresh w c b)).Nodup)
    (hplace : ∀ pre m d post, fresh w c b = pre ++ .entry m d :: post →
      makeOffsetLen (stream (ss ++ pre)).length (payload m d).length ≠ -1) :
    OnceIn ts (ss ++ fresh w c b) w' := by
  have hj := hdone.before
  have hfresh : freshEntries j.current c b = fresh w c b := by rw [fresh, index_eq hj]
  have hlive := hdone.live
  have hbatched := hdone.batched
  rw [hfresh] at hlive hbatched
  have hnew : ∀ m, m ∈ hashes (fresh w c b) ↔ m ∈ c ∧ m ∉ hashes ss := fun m => by
    rw [mem_hashes_fresh hdone.lengths, h.keys]
  have hindex : index w' = t' := by
    obtain ⟨u, -, heq⟩ := hdone.after
    have hlevel : w'.disk.levelIndex = some (j.write t') := by rw [heq]
    rw [index_eq hlevel, Journal.current_write]
  have hsome : ∀ (m : Multihash) (t : Index), m ∈ t ↔ t[m]?.isSome := fun m t =>
    Std.TreeMap.mem_iff_isSome_getElem?
  refine ⟨hlive, ?_, fun m => ⟨fun hm => ?_, fun hm => ?_⟩⟩
  · rw [hashes_append, List.nodup_append]
    refine ⟨h.distinct, hdistinct, ?_⟩
    rintro m hm _ hm' rfl
    exact ((hnew m).mp hm').2 hm
  · rw [hindex, hsome] at hm
    obtain ⟨v, hv⟩ := Option.isSome_iff_exists.mp hm
    obtain ⟨d, hd⟩ := hbatched.ok.indexed m v (by rwa [Journal.current_write])
    exact mem_hashes.mpr ⟨d, hd.mem⟩
  · rw [hindex, hsome]
    rw [hashes_append, List.mem_append] at hm
    -- an old one is in the index still, a new one was written
    by_cases hold : m ∈ hashes ss
    · rw [← h.keys, index_eq hj, hsome] at hold
      obtain ⟨v, hv⟩ := Option.isSome_iff_exists.mp hold
      rw [hbatched.within m v hv]
      rfl
    · have hmem := hm.resolve_left hold
      refine hbatched.all m ((hnew m).mp hmem).1 fun d v hd => ?_
      obtain ⟨pre, post, heq, rfl⟩ := hd
      -- the entry is one of the new ones
      rcases List.append_eq_append_iff.mp heq with ⟨pre', rfl, hpre⟩ | ⟨mid, hss, hmid⟩
      · exact hplace pre' m d post hpre
      · cases mid with
        | nil =>
          rw [List.append_nil] at hss
          have := hplace [] m d post hmid.symm
          rwa [List.append_nil, hss] at this
        | cons p mid =>
          obtain ⟨rfl, -⟩ := List.cons_eq_cons.mp hmid
          exact absurd (mem_hashes.mpr ⟨d, by rw [hss]; simp⟩) hold

end OnceIn

/-! ## Runs -/

/-- **What a `Put` appends, it appends once**: the blocks that the index does
not have are different ones, their places can be told from that of a
missing block, and nothing stops the `Put` behind the first of them. -/
structure AppendsOnce (w : World) (c : List Multihash) (b : List Bytes) (plan : List Fate) :
    Prop where
  distinct : (hashes (fresh w c b)).Nodup
  place : ∀ pre m d post, fresh w c b = pre ++ .entry m d :: post →
    makeOffsetLen (w.jb.dataLen + (pre.flatMap Piece.bytes).length) (payload m d).length ≠ -1
  large : ∀ es, TooLarge (fresh w c b) es → es = []
  /-- A step fails only while the log is as long as before. -/
  mild : (CarLog.put c b).Mild (FailsAt (· = w.jb.dataLen)) w plan

/-- Entries whose lengths fit the packed offset. -/
theorem AppendsOnce.of_short {plan : List Fate} (hdistinct : (hashes (fresh w c b)).Nodup)
    (hshort : ∀ p ∈ fresh w c b, p.Short)
    (hmild : (CarLog.put c b).Mild (FailsAt (· = w.jb.dataLen)) w plan) :
    AppendsOnce w c b plan := by
  refine ⟨hdistinct, fun pre m d post heq => ?_, fun es => ?_, hmild⟩
  · exact makeOffsetLen_ne_neg_one (hshort (.entry m d) (by rw [heq]; simp))
  · rintro ⟨m, d, rest, heq, hlarge⟩
    have hlen : (payload m d).length < 2 ^ 23 := hshort (.entry m d) (by rw [heq]; simp)
    have hmax : maxEntryLen = 2 ^ 24 := rfl
    rw [payload, List.length_append] at hlen
    omega

omit X in
/-- Pieces that were appended are seen in the length. -/
theorem eq_nil_of_length_eq [External] {ps es : List Piece} (hes : ∀ p ∈ es, p.Whole)
    (h : (stream (ps ++ es)).length = (stream ps).length) : es = [] := by
  cases es with
  | nil => rfl
  | cons p es =>
    cases p with
    | torn b => exact (hes _ List.mem_cons_self).elim
    | entry m d =>
      have hpos := frameSize_pos (payload m d).length
      rw [stream_append, List.length_append, List.flatMap_cons, List.length_append, Piece.bytes,
        length_framed] at h
      omega

/-- **One `Put`.** -/
theorem onceIn_put {plan : List Fate} (h : OnceIn ts ss w) (hvalid : ∀ m ∈ c, ValidMultihash m)
    (hc : AppendsOnce w c b plan) : ((CarLog.put c b).run w plan).Sat
      ⟨fun _ w' => ∃ ss', OnceIn ts ss' w', fun _ w' => OnceIn ts ss w', fun _ => True,
        fun _ _ => True⟩ := by
  have hput : PutOk Piece.Whole w c b := putOk_whole hvalid
  refine (wpMild_sound (CarLog.wpMild_put h.live hput) hc.mild).mono ?_ ?_ (fun _ => id)
    fun _ _ _ => trivial
  · rintro - w' ⟨j, t', hdone⟩
    refine ⟨_, h.put hdone hc.distinct fun pre m d post heq => ?_⟩
    have := hc.place pre m d post heq
    rwa [h.live.dataLen, ← List.length_append, ← stream_append] at this
  · rintro e w' ⟨hsame, j, es, hj, hstopped, hlive⟩
    have hfresh : freshEntries j.current c b = fresh w c b := by rw [fresh, index_eq hj]
    rw [hfresh] at hstopped
    have hnil : es = [] := by
      rcases hstopped.why with ⟨hnil, -⟩ | hlen | hlarge
      · exact hnil
      · have hgood : ∀ p ∈ es, p.Whole := fun p hp => hlive.good p (List.mem_append_right _ hp)
        exact eq_nil_of_length_eq hgood (hlen.trans h.live.dataLen)
      · exact hc.large es hlarge
    rw [hnil, List.append_nil] at hlive
    refine ⟨hlive, h.distinct, fun m => ?_⟩
    rw [← h.keys, index, hsame, index]

/-- The event is a `Put` of blocks. -/
def IsPut (e : Event) : Prop :=
  ∃ c b plan, e = .call (.put c b) plan ∧ ∀ m ∈ c, ValidMultihash m

/-- Every `Put` appends once. -/
def PutsOnce (s : Sys) : Event → Prop
  | .call (.put c b) plan => s.isUp → AppendsOnce s.world c b plan
  | _ => True

/-- Where the process goes on, the log has each block once. -/
def OnceAfter (s : Sys) (e : Event) : Prop := (s.next e).isUp → Once (s.next e).world

theorem onceIn_next {s : Sys} {e : Event} (h : s.isUp → ∃ ts ss, OnceIn ts ss s.world)
    (he : IsPut e) (hc : PutsOnce s e) :
    (s.next e).isUp → ∃ ts ss, OnceIn ts ss (s.next e).world := by
  obtain ⟨c, b, plan, rfl, hvalid⟩ := he
  simp only [Sys.next, Cmd.Starts, false_and, not_false_eq_true, true_and, false_or]
  by_cases hup : s.isUp
  swap
  · rw [if_neg hup]
    exact h
  rw [if_pos hup]
  obtain ⟨ts, ss, hin⟩ := h hup
  have hsat := onceIn_put hin hvalid (hc hup)
  rw [show (Cmd.put c b).op = CarLog.put c b from rfl]
  cases hrun : (CarLog.put c b).run s.world plan with
  | ok a w' =>
    rw [hrun] at hsat
    exact fun _ => ⟨ts, hsat⟩
  | err e w' =>
    rw [hrun] at hsat
    exact fun _ => ⟨ts, ss, hsat⟩
  | crash w' => exact fun h => absurd h (by simp [Sys.after, Sys.down])
  | fault k w' => exact fun h => absurd h (by simp [Sys.after, Sys.down])

/-- **Each block once**, in the runs of `Put`s that append what they append
once. -/
theorem once_run {s : Sys} (hlive : Live Piece.Whole True False ts ss s.world)
    (honce : Once s.world) {es : List Event} (hputs : ∀ e ∈ es, IsPut e)
    (hes : Always Sys.next PutsOnce s es) : Always Sys.next OnceAfter s es := by
  refine Always.imp_of (I := fun s => s.isUp → ∃ ts ss, OnceIn ts ss s.world)
    (C := fun s e => PutsOnce s e ∧ IsPut e) (fun s e h hC => onceIn_next h hC.2 hC.1)
    (fun s e h hC hup => ?_) (fun _ => ⟨ts, ss, .of_once hlive honce⟩) (hes.and_forall hputs)
  obtain ⟨ts', ss', hin⟩ := onceIn_next h hC.2 hC.1 hup
  exact hin.once

end

section

open Carlog.Encoding

/-- A new log. -/
def newLog : Sys := (Sys.start .empty).next (.call (.create false) [])

/-- **A batch that has a block twice** appends it twice. -/
theorem put_twice : ¬ Always Sys.next OnceAfter newLog
    [.call (.put [[0, 1, 7], [0, 1, 7]] [[7], [7]]) []] := by
  rintro ⟨honce, -⟩
  exact absurd (honce (by decide)).distinct (by decide)

/-- A `Put`, one that fails at its first step, and the first one again. -/
theorem once_run_seven : Always Sys.next OnceAfter newLog
    [.call (.put [[0, 1, 7]] [[7]]) [], .call (.put [[0, 1, 8]] [[8]]) [.fail 0],
      .call (.put [[0, 1, 7]] [[7]]) []] := by
  have hlive : Live Piece.Whole True False [] [] newLog.world := CarLog.live_created rfl rfl
  have hvalid : ∀ x : UInt8, ValidMultihash [0, 1, x] := fun x => ⟨0, [x], by decide, by simp, rfl⟩
  have hshort : ∀ x : UInt8, ∀ p ∈ [Piece.entry [0, 1, x] [x]], p.Short := fun x p hp => by
    rw [List.mem_singleton.mp hp]
    exact show 6 < 2 ^ 23 by norm_num
  refine once_run hlive ⟨by decide, by decide⟩ ?_ ⟨fun _ => ?_, fun _ => ?_, fun _ => ?_, trivial⟩
  · simp only [List.forall_mem_cons, List.not_mem_nil, false_imp_iff, implies_true, and_true]
    exact ⟨⟨_, _, _, rfl, by simpa using hvalid 7⟩, ⟨_, _, _, rfl, by simpa using hvalid 8⟩,
      ⟨_, _, _, rfl, by simpa using hvalid 7⟩⟩
  · exact .of_short (by decide) (hshort 7) Prog.mild_nil
  · exact .of_short (by decide) (hshort 8) (And.intro rfl Prog.mild_nil)
  · have hnil : fresh ((newLog.next (.call (.put [[0, 1, 7]] [[7]]) [])).next
        (.call (.put [[0, 1, 8]] [[8]]) [.fail 0])).world [[0, 1, 7]] [[7]] = [] := rfl
    exact .of_short (hnil ▸ List.nodup_nil) (by simp [hnil]) Prog.mild_nil

end

end Carlog

end Ribs
