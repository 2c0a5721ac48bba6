import Ribs.Carlog.Blocks
import Ribs.Carlog.CanonTree
/-!
# Carlog — generating the top tree

The generation writes the layers one behind the other. At any time what is
behind the header are the layers of a packed forest over the blocks of the
log, and the links that the generation holds are those to its roots; when
one is left, it is the root of the canonical tree.
-/

namespace Ribs

open Common

namespace Carlog

open Ributil (entries entries_append entries_cons)

section

variable [X : External] {d : ℕ}

/-! ## The layers of a forest -/

/-- The links to the roots. -/
def links (ts : List (BlockTree d)) : List Cid := ts.map fun t => t.root.1

theorem links_append (ts us : List (BlockTree d)) : links (ts ++ us) = links ts ++ links us :=
  List.map_append

theorem links_ofLeaves (bs : List Block) :
    links (EvenTree.ofLeaves bs) = bs.map fun b => (leafBlock b).1 := rfl

/-- **The bytes of a log** up to layer `m` of a forest. -/
def layersOf (m : ℕ) (ts : List (BlockTree d)) : Bytes :=
  headerBytes ++ (List.range m).flatMap fun k => entries (ts.flatMap (BlockTree.layer k))

/-- Where the layers start. -/
def starts (ts : List (BlockTree d)) : List ℕ :=
  (List.range (d + 1)).map fun k => (layersOf k ts).length

theorem layersOf_succ (m : ℕ) (ts : List (BlockTree d)) :
    layersOf (m + 1) ts = layersOf m ts ++ entries (ts.flatMap (BlockTree.layer m)) := by
  simp [layersOf, List.range_succ]

/-- The lower layers of a forest are those of what is below it. -/
theorem layersOf_grow {n m : ℕ} (hn : 0 < n) (ts : List (BlockTree d)) (hm : m ≤ d + 1) :
    layersOf m (EvenTree.grow n ts) = layersOf m ts := by
  unfold layersOf
  congr 1
  refine List.flatMap_congr fun k hk => ?_
  have hlt := List.mem_range.mp hk
  have hlevel : (EvenTree.grow n ts).flatMap (BlockTree.layer k) = _ :=
    EvenTree.flatMap_level_children leafBlock linkBlock _ (show k ≠ d + 1 by omega)
  rw [EvenTree.children_grow hn] at hlevel
  exact congrArg entries hlevel

theorem starts_grow {n : ℕ} (hn : 0 < n) (ts : List (BlockTree d)) :
    starts (EvenTree.grow n ts) = starts ts ++ [(layersOf (d + 1) ts).length] := by
  rw [starts, List.range_succ, List.map_append, List.map_singleton, layersOf_grow hn ts le_rfl]
  congr 1
  refine List.map_congr_left fun k hk => ?_
  have hlt := List.mem_range.mp hk
  rw [layersOf_grow hn ts (by omega)]

/-- A layer more. -/
theorem layersOf_grow_succ {n : ℕ} (hn : 0 < n) (ts : List (BlockTree d)) :
    layersOf (d + 2) (EvenTree.grow n ts) =
      layersOf (d + 1) ts ++ entries ((EvenTree.grow n ts).map BlockTree.root) := by
  rw [layersOf_succ, layersOf_grow hn ts le_rfl]
  congr 2
  exact EvenTree.flatMap_level_self _

theorem entries_ofLeaves (bs : List Block) :
    entries ((EvenTree.ofLeaves bs).flatMap (BlockTree.layer 0)) =
      (pieces bs).flatMap Piece.bytes := by
  induction bs with
  | nil => rfl
  | cons b bs ih =>
    rw [pieces, List.map_cons, List.flatMap_cons]
    exact congrArg (framed (payload b.hash b.data) ++ ·) ih

/-- The bottom layer are the entries of the log. -/
theorem layersOf_ofLeaves (bs : List Block) :
    layersOf 1 (EvenTree.ofLeaves bs) = stream (pieces bs) := by
  have hnil : layersOf 0 (EvenTree.ofLeaves bs) = headerBytes := List.append_nil _
  rw [layersOf_succ, hnil, stream, entries_ofLeaves]

/-- The entries of the log come first. -/
theorem stream_isPrefix_layersOf {bs : List Block} {ts : List (BlockTree d)}
    (h : ts.flatMap EvenTree.leaves = bs) (m : ℕ) : stream (pieces bs) <+: layersOf (m + 1) ts := by
  have hlevel : (EvenTree.ofLeaves bs).flatMap (BlockTree.layer 0) =
      ts.flatMap (BlockTree.layer 0) := by
    have hts := EvenTree.flatMap_level_zero leafBlock linkBlock ts
    have hbs := EvenTree.flatMap_level_zero leafBlock linkBlock (EvenTree.ofLeaves bs)
    rw [EvenTree.flatMap_leaves_ofLeaves, ← h, ← hts] at hbs
    rw [← h]
    exact hbs
  have hone : stream (pieces bs) = layersOf 1 ts := by
    rw [stream, ← entries_ofLeaves, hlevel]
    simp [layersOf, List.range_succ]
  rw [hone]
  induction m with
  | zero => exact List.prefix_rfl
  | succ m ih => exact ih.trans ⟨_, (layersOf_succ (m + 1) ts).symm⟩

/-- **The layers can be read** where they start. -/
theorem ahead_starts {file : Bytes} {ts : List (BlockTree d)} (h : layersOf (d + 1) ts <+: file) :
    Ahead file (starts ts) fun k => ts.flatMap (BlockTree.layer k) := by
  intro k hne
  have hk : k < d + 1 := by
    by_contra hge
    refine hne (List.flatMap_eq_nil_iff.mpr fun t _ => EvenTree.level_of_lt t ?_)
    omega
  refine ⟨(layersOf k ts).length, by simp [starts, hk], ?_⟩
  -- up to this layer, and the layer
  have hpre : layersOf (k + 1) ts <+: file := by
    refine List.IsPrefix.trans ?_ h
    obtain ⟨j, hj⟩ := Nat.exists_eq_add_of_le (show k + 1 ≤ d + 1 by omega)
    rw [hj, layersOf, layersOf, List.range_add (n := k + 1), List.flatMap_append,
      ← List.append_assoc]
    exact List.prefix_append _ _
  obtain ⟨tail, htail⟩ := hpre
  rw [layersOf_succ, List.append_assoc] at htail
  rw [← htail, List.drop_left]
  exact List.prefix_append _ _

/-! ## Writing them -/

variable {E : Prop} {F : Fates} {S : Bytes} {w₀ w : World}

/-- **So much of the log is written**, to the file or the buffer, and nothing
else was done since `w₀`. -/
structure Built (E : Prop) (S : Bytes) (w₀ w : World) : Prop where
  tail : Tailed E False [] S w
  dataLen : w.jb.dataLen = S.length
  only : AppendOnly w₀ w

/-- **The blocks seen so far**: those of full nodes, which are written, and
those of the node that is being filled. -/
def Collecting (E : Prop) (S : Bytes) (w₀ : World) (pre : List Block)
    (ls : List Cid × List Cid) (w : World) : Prop :=
  ∃ done cur, pre = done ++ cur ∧ arity ∣ done.length ∧ cur.length < arity ∧
    ls.1 = links (EvenTree.ofLeaves cur) ∧
    ls.2 = links (EvenTree.grow arity (EvenTree.ofLeaves done)) ∧
    Built E (S ++ entries ((EvenTree.grow arity (EvenTree.ofLeaves done)).map BlockTree.root)) w₀ w

/-- **The layers so far** are those of a packed forest over the blocks; the
start of the first is not known yet. -/
structure Stacked (E : Prop) (bs : List Block) (w₀ : World) (ts : List (BlockTree (d + 1)))
    (next : List Cid) (offs : List ℕ) (w : World) : Prop where
  leaves : ts.flatMap EvenTree.leaves = bs
  packed : EvenTree.Packed arity ts
  /-- No layer is there that need not be. -/
  least : d = 0 ∨ 1 < (EvenTree.children ts).length
  next : next = links ts
  offs : offs = (starts ts).set 0 0
  built : Built E (layersOf (d + 2) ts) w₀ w

omit X in
theorem arity_pos : 0 < arity := by decide

namespace CarLog

omit X in
theorem well_ldWrite (hE : Failing F → E) (h : Tailed E False [] S w) (d : List Bytes) :
    wp F (ldWrite d) (EndsWell E fun n w' => n = frameSize d.flatten.length ∧ FileOnly w w' ∧
      Tailed E False [] (S ++ framed d.flatten) w') w := by
  refine wp_mono (wp_ldWrite hE h d) (fun _ _ => id) ?_ (fun _ _ => trivial) fun _ _ => id
  rintro _ u ⟨-, j, f, b, ht, herr⟩
  exact ht.err herr

/-- A block of links comes behind what is written. -/
theorem well_writeLinkBlock (hE : Failing F → E) (h : Built E S w₀ w) (next : List Cid)
    (ts : List (BlockTree d)) : wp F (writeLinkBlock next (links ts))
      (EndsWell E fun r w' => r = next ++ links [EvenTree.ofTrees ts] ∧
        Built E (S ++ entries [BlockTree.root (EvenTree.ofTrees ts)]) w₀ w') w := by
  have hlinks : links ts = (ts.map BlockTree.root).map Prod.fst := by
    rw [links, List.map_map]
    rfl
  have hone : entries [BlockTree.root (EvenTree.ofTrees ts)] =
      framed ([(nodeCid (X.encodeLinks (links ts))).bytes, X.encodeLinks (links ts)]).flatten := by
    have hroot : BlockTree.root (EvenTree.ofTrees ts) = linkBlock (ts.map BlockTree.root) := rfl
    rw [hlinks, hroot]
    simp [entries, linkBlock]
  rw [hone]
  unfold writeLinkBlock
  refine well_seq (well_wrapErr (well_ldWrite hE h.tail _)) ?_
  rintro _ u ⟨rfl, honly, htail⟩
  rw [wp_bind, wp_modifyJb]
  have hlen : u.jb.dataLen = w.jb.dataLen := by
    obtain ⟨_, _, _, _, rfl⟩ := honly
    rfl
  obtain ⟨j, f, b, ht⟩ := htail
  refine ⟨by rw [hlinks]; rfl, ⟨j, f, b, { ht with }⟩, ?_, ?_⟩
  · show u.jb.dataLen + _ = _
    rw [hlen, h.dataLen, List.length_append, length_framed]
  · exact h.only.trans (honly.appendOnly.trans ⟨_, _, _, _, _, _, rfl⟩)

/-- **The callback over the bottom layer.** -/
theorem well_collectLink (hE : Failing F → E) {pre : List Block} {ls : List Cid × List Cid}
    (h : Collecting E S w₀ pre ls w) {e : LogEntry} (b : Block) (he : e.cid = (leafBlock b).1) :
    wp F (collectLink ls e) (EndsWell E (Collecting E S w₀ (pre ++ [b]))) w := by
  obtain ⟨done, cur, rfl, hdvd, hlt, hcur, hnext, hbuilt⟩ := h
  have hmore : ls.1 ++ [e.cid] = links (EvenTree.ofLeaves (cur ++ [b])) := by
    rw [hcur, he, links_ofLeaves, links_ofLeaves, List.map_append, List.map_singleton]
  have hlen : (ls.1 ++ [e.cid]).length = cur.length + 1 := by
    rw [hmore, links_ofLeaves, List.length_map, List.length_append, List.length_singleton]
  unfold collectLink
  rw [hlen, hmore]
  refine wp_ite.mpr ⟨fun hfull => ?_, fun hfull => ?_⟩
  · -- the node is full, and written
    refine well_seq (well_wrapErr (well_writeLinkBlock hE hbuilt ls.2
      (EvenTree.ofLeaves (cur ++ [b])))) ?_
    rintro r u ⟨rfl, hu⟩
    have hgrow : EvenTree.grow arity (EvenTree.ofLeaves (done ++ (cur ++ [b]))) =
        EvenTree.grow arity (EvenTree.ofLeaves done) ++
          [EvenTree.ofTrees (EvenTree.ofLeaves (cur ++ [b]))] := by
      have hne : EvenTree.ofLeaves (cur ++ [b]) ≠ [] :=
        List.append_ne_nil_of_right_ne_nil _ (List.cons_ne_nil b [])
      exact EvenTree.grow_append arity_pos hdvd hne (List.length_append.trans hfull).le
    refine ⟨done ++ (cur ++ [b]), [], by simp, ?_, arity_pos, rfl, ?_, ?_⟩
    · rw [List.length_append, List.length_append, List.length_singleton, hfull]
      exact Nat.dvd_add hdvd (Nat.dvd_refl _)
    · rw [hgrow, hnext, links_append]
    · rw [hgrow, List.map_append, entries_append, ← List.append_assoc]
      exact hu
  · refine ⟨done, cur ++ [b], by simp, hdvd, ?_, rfl, hnext, hbuilt⟩
    rw [List.length_append, List.length_singleton]
    omega

/-- All blocks of the log, one after the other. -/
theorem well_collect (hE : Failing F → E) (bs : List Block) {pre : List Block}
    {ls : List Cid × List Cid} {off : ℕ} (h : Collecting E S w₀ pre ls w) :
    wp F ((walked off (pieces bs)).foldlM (fun ls e => do
      ioRead
      collectLink ls e) ls) (EndsWell E (Collecting E S w₀ (pre ++ bs))) w := by
  induction bs generalizing pre ls off w with
  | nil =>
    rw [List.append_nil]
    exact h
  | cons b bs ih =>
    have hwalked : walked off (pieces (b :: bs)) =
        ⟨off, (payload b.hash b.data).length, ⟨raw, b.hash⟩, b.data⟩ ::
          walked (off + frameSize (payload b.hash b.data).length) (pieces bs) := rfl
    rw [hwalked, List.foldlM_cons]
    refine well_seq (R := Collecting E S w₀ (pre ++ [b])) ?_ fun ls' u hu => ?_
    · rw [wp_bind, wp_ioRead]
      exact ⟨well_collectLink hE h b rfl, hE, fun _ => trivial⟩
    · rw [List.append_cons]
      exact ih hu

/-- **The walk over the bottom layer.** -/
theorem well_iterate (hE : Failing F → E) {bs : List Block}
    (h : Built E (stream (pieces bs)) w₀ w) (hregular : ∀ b ∈ bs, b.Regular)
    (hstart : w.jb.dataStart = headerBytes.length) (hfile : stream (pieces bs) <+: blockLog w) :
    wp F (iterate (stream (pieces bs)).length collectLink ([], []))
      (EndsWell E (Collecting E (stream (pieces bs)) w₀ bs)) w := by
  have hnone : Collecting E (stream (pieces bs)) w₀ [] ([], []) w := by
    refine ⟨[], [], rfl, Nat.dvd_zero _, arity_pos, rfl, rfl, ?_⟩
    have hnil : entries ((EvenTree.grow arity (EvenTree.ofLeaves [])).map BlockTree.root) = [] := rfl
    rwa [hnil, List.append_nil]
  obtain ⟨j, f, b, ht⟩ := id h.tail
  have hbytes : ((blockLog w).drop w.jb.dataStart).take
      ((stream (pieces bs)).length - w.jb.dataStart) = (pieces bs).flatMap Piece.bytes := by
    obtain ⟨tail, htail⟩ := hfile
    rw [← htail, hstart, stream, List.append_assoc, List.drop_left, List.length_append,
      Nat.add_sub_cancel_left, List.take_left]
  have hwhole : ∀ p ∈ pieces bs, p.Whole := by
    intro p hp
    obtain ⟨b, hb, rfl⟩ := List.mem_map.mp hp
    have hlen := (hregular b hb).length
    have hmax : maxEntryLen = 16777216 := rfl
    rw [payload, List.length_append] at hlen
    exact ⟨Encoding.validMultihash_of_isSha256 (hregular b hb).hash, by omega⟩
  unfold iterate
  rw [wp_get]
  refine wp_ite.mpr ⟨fun hle => ?_, fun _ => ?_⟩
  · -- there are no blocks
    have hnil : bs = [] := by
      cases bs with
      | nil => rfl
      | cons b bs =>
        have hpos := frameSize_pos (payload b.hash b.data).length
        rw [hstart, stream, pieces, List.map_cons, List.flatMap_cons, List.length_append,
          List.length_append, Piece.bytes, length_framed] at hle
        omega
    subst hnil
    exact hnone
  · have hopen : wp F openData (EndsWell E fun _ u => u = w) w := by
      unfold openData
      rw [wp_get, ht.data]
      dsimp only
      rw [if_pos ht.isOpen]
      rfl
    refine well_seq hopen ?_
    rintro _ _ rfl
    rw [hbytes]
    dsimp only
    rw [walk_whole hwhole le_rfl]
    refine well_seq (well_collect hE bs hnone) fun ls u hu => ?_
    rw [wp_bind, wp_ioRead]
    exact ⟨hu, hE, fun _ => trivial⟩

/-- The last node of the layer. -/
theorem well_finishLayer (hE : Failing F → E) {bs : List Block} {ls : List Cid × List Cid}
    (h : Collecting E S w₀ bs ls w) : wp F (finishLayer ls) (EndsWell E fun r w' =>
      r = links (EvenTree.grow arity (EvenTree.ofLeaves bs)) ∧ Built E
        (S ++ entries ((EvenTree.grow arity (EvenTree.ofLeaves bs)).map BlockTree.root)) w₀ w')
      w := by
  obtain ⟨done, cur, rfl, hdvd, hlt, hcur, hnext, hbuilt⟩ := h
  unfold finishLayer
  refine wp_ite.mpr ⟨fun hnil => ?_, fun hne => ?_⟩
  · have hcur' : cur = [] := by
      rw [hcur, links_ofLeaves] at hnil
      exact List.map_eq_nil_iff.mp hnil
    subst hcur'
    rw [List.append_nil]
    exact ⟨hnext, hbuilt⟩
  · have hcur' : EvenTree.ofLeaves cur ≠ [] := by
      intro hnil
      rw [hcur, hnil] at hne
      exact hne rfl
    have hgrow : EvenTree.grow arity (EvenTree.ofLeaves (done ++ cur)) =
        EvenTree.grow arity (EvenTree.ofLeaves done) ++
          [EvenTree.ofTrees (EvenTree.ofLeaves cur)] :=
      EvenTree.grow_append arity_pos hdvd hcur' hlt.le
    rw [hcur]
    refine well_mono (well_wrapErr (well_writeLinkBlock hE hbuilt ls.2 (EvenTree.ofLeaves cur))) ?_
    rintro r u ⟨rfl, hu⟩
    rw [hgrow, links_append, hnext, List.map_append, entries_append, ← List.append_assoc]
    exact ⟨rfl, hu⟩

/-- The nodes of a layer, one after the other. -/
theorem well_writeLinkBlocks (hE : Failing F → E) (us : List (BlockTree (d + 1)))
    (h : Built E S w₀ w) (next : List Cid) :
    wp F ((us.map fun t => links (EvenTree.trees t)).foldlM
        (fun next ls => wrapErr "writing link block" (writeLinkBlock next ls)) next)
      (EndsWell E fun r w' => r = next ++ links us ∧
        Built E (S ++ entries (us.map BlockTree.root)) w₀ w') w := by
  induction us generalizing S next w with
  | nil =>
    refine ⟨(List.append_nil _).symm, ?_⟩
    rwa [show entries (([] : List (BlockTree (d + 1))).map BlockTree.root) = [] from rfl,
      List.append_nil]
  | cons t us ih =>
    rw [List.map_cons, List.foldlM_cons]
    refine well_seq (well_wrapErr (well_writeLinkBlock hE h next (EvenTree.trees t))) ?_
    rintro r u ⟨rfl, hu⟩
    refine well_mono (ih hu _) ?_
    rintro r v ⟨rfl, hv⟩
    have hlinks : links (t :: us) = links [t] ++ links us := links_append [t] us
    have hentries : entries ((t :: us).map BlockTree.root) =
        entries [t.root] ++ entries (us.map BlockTree.root) := entries_append [t.root] _
    refine ⟨?_, ?_⟩
    · rw [hlinks, List.append_assoc]
      rfl
    · rw [hentries, ← List.append_assoc]
      exact hv

/-- **One layer more.** -/
theorem well_growLayer (hE : Failing F → E) {bs : List Block} {ts : List (BlockTree (d + 1))}
    {next : List Cid} {offs : List ℕ} (h : Stacked E bs w₀ ts next offs w)
    (hmany : 1 < ts.length) :
    wp F ((chunks arity next).foldlM
        (fun next ls => wrapErr "writing link block" (writeLinkBlock next ls)) [])
      (EndsWell E fun r w' =>
        Stacked E bs w₀ (EvenTree.grow arity ts) r (offs ++ [w.jb.dataLen]) w') w := by
  have hchunks : chunks arity next =
      (EvenTree.grow arity ts).map fun t => links (EvenTree.trees t) := by
    rw [h.next, links, chunks_map arity_pos]
    rfl
  rw [hchunks]
  refine well_mono (well_writeLinkBlocks hE _ h.built []) ?_
  rintro r u ⟨rfl, hu⟩
  refine ⟨?_, EvenTree.packed_grow arity_pos h.packed, Or.inr ?_, rfl, ?_, ?_⟩
  · rw [← EvenTree.flatMap_leaves_children, EvenTree.children_grow arity_pos, h.leaves]
  · rwa [EvenTree.children_grow arity_pos]
  · have hpos : 0 < (starts ts).length := by simp [starts]
    rw [h.offs, starts_grow arity_pos, h.built.dataLen, List.set_append_left _ _ hpos]
  · rw [layersOf_grow_succ arity_pos]
    exact hu

/-- **Layers are added until one node is left.** -/
theorem well_genLayers (hE : Failing F → E) {bs : List Block} (fuel : ℕ)
    {ts : List (BlockTree (d + 1))} {next : List Cid} {offs : List ℕ}
    (h : Stacked E bs w₀ ts next offs w) (hfuel : ts.length ≤ fuel + 1) :
    wp F (genLayers fuel next offs) (EndsWell E fun r w' => ∃ d', ∃ us : List (BlockTree (d' + 1)),
      us.length ≤ 1 ∧ Stacked E bs w₀ us r.1 r.2 w') w := by
  have hlen : next.length = ts.length := by
    rw [h.next, links, List.length_map]
  induction fuel generalizing d next offs w with
  | zero => exact ⟨d, ts, hfuel, h⟩
  | succ fuel ih =>
    unfold genLayers
    rw [wp_get]
    refine wp_ite.mpr ⟨fun hmany => ?_, fun hone => ?_⟩
    · have hmany' : 1 < ts.length := by omega
      refine well_seq (well_growLayer hE h hmany') fun r u hu => ?_
      have hless : (EvenTree.grow arity ts).length < ts.length :=
        length_chunks_lt (by decide) hmany'
      refine ih hu (by omega) ?_
      rw [hu.next, links, List.length_map]
    · exact ⟨d, ts, by omega, h⟩

/-! ## The root in the header -/

/-- The placeholder is a CID like any other. -/
theorem decodeHeader_placeholder :
    X.decodeHeader (X.encodeHeader [placeholderCid]) = some (1, [placeholderCid]) := by
  refine X.decodeHeader_encodeHeader placeholderCid (Or.inl rfl) ?_ length_placeholderCid
  exact ⟨0, List.replicate 32 0, by norm_num, by simp, by decide⟩

theorem length_carHeader {root : Cid} (h : root.bytes.length = 36) :
    (carHeader root).length = 59 := by
  rw [carHeader, length_framed, X.length_encodeHeader root h]
  rfl

omit X in
/-- The data file is written to in place. -/
theorem well_dataWriteAt (hE : Failing F → E) {j : Journal Bytes} {f : DataFile}
    (hlog : w.disk.blockLog = some j) (hdata : w.jb.data = some f) (hopen : f.isOpen = true)
    (p : Bytes) (off : ℕ) : wp F (dataWriteAt p off) (EndsWell E fun _ w' =>
      ∃ j', w' = { w with disk := { w.disk with blockLog := some j' } } ∧
        j'.current = overwrite j.current off p) w := by
  simp only [dataWriteAt, openData, wp_bind, hdata, hopen, if_true, wp_ret, wp]
  refine ⟨?_, fun n hn => hE ⟨n, hn⟩, fun _ => trivial⟩
  refine ⟨if f.osync then (j.write (overwrite j.current off p)).sync
    else j.write (overwrite j.current off p), ?_, ?_⟩
  · simp only [modifyDisk, writeBlockLog, hlog, Option.map_some]
  · split <;> simp

/-- **The root goes into the header**, over the placeholder. -/
theorem well_updateHeader (hE : Failing F → E) {j : Journal Bytes} {f : DataFile} {root : Cid}
    (hlog : w.disk.blockLog = some j) (hdata : w.jb.data = some f) (hopen : f.isOpen = true)
    (hfile : headerBytes <+: j.current) (hlong : 128 ≤ j.current.length)
    (hroot : root.bytes.length = 36) : wp F (updateHeader root) (EndsWell E fun n w' => n = 59 ∧
      ∃ j', w' = { w with disk := { w.disk with blockLog := some j' } } ∧
        j'.current = carHeader root ++ j.current.drop 59) w := by
  obtain ⟨more, hmore⟩ := hfile
  have hcur : blockLog w = j.current := by rw [blockLog, hlog]; rfl
  have hplace := X.length_encodeHeader placeholderCid length_placeholderCid
  have hnew := X.length_encodeHeader root hroot
  have hvarint : (putUvarint 58).length = 1 := by decide
  -- what is read of the file is the old header, and what comes behind it
  have hbuf : (j.current.drop 0).take 128 =
      putUvarint 58 ++ (X.encodeHeader [placeholderCid] ++ more.take 69) := by
    have hhead : headerBytes = putUvarint 58 ++ X.encodeHeader [placeholderCid] := by
      rw [headerBytes, carHeader, framed, hplace]
    have hlen : headerBytes.length = 59 := length_headerBytes
    rw [List.drop_zero, ← hmore, List.take_append, hlen, List.take_of_length_le (by omega), hhead,
      List.append_assoc]
  have hread : readUvarint (putUvarint 58 ++ (X.encodeHeader [placeholderCid] ++ more.take 69)) =
      .ok (58, X.encodeHeader [placeholderCid] ++ more.take 69) :=
    readUvarint_putUvarint (by norm_num) _
  have hpart : wp F (dataReadAt 0 128) (EndsWell E fun bs u => u = w ∧
      bs = putUvarint 58 ++ (X.encodeHeader [placeholderCid] ++ more.take 69)) w := by
    simp only [dataReadAt, openData, wp_bind, wp_get, hdata, hopen, if_true, wp_ret, wp_ioRead]
    refine ⟨?_, hE, fun _ => trivial⟩
    rw [hcur, if_pos (by omega), hbuf]
    exact ⟨rfl, rfl⟩
  unfold updateHeader
  refine well_seq (well_wrapErr hpart) ?_
  rintro _ _ ⟨rfl, rfl⟩
  simp only [hread]
  have htake : (X.encodeHeader [placeholderCid] ++ more.take 69).take 58 =
      X.encodeHeader [placeholderCid] := by rw [← hplace, List.take_left]
  have hn : (putUvarint 58 ++ (X.encodeHeader [placeholderCid] ++ more.take 69)).length -
      (X.encodeHeader [placeholderCid] ++ more.take 69).length = 1 := by
    rw [List.length_append, hvarint]
    omega
  rw [if_neg (by rw [List.length_append, hplace]; omega), htake, decodeHeader_placeholder]
  simp only [hn]
  have hpass : ∀ {c : Prop} [Decidable c] {e : Err} {u : World}, ¬ c →
      wp F (failIf c e) (EndsWell E fun _ v => v = u) u := fun hc =>
    wp_failIf.mpr ⟨fun h => absurd h hc, fun _ => rfl⟩
  refine well_seq (hpass (by simp)) ?_
  rintro - _ rfl
  refine well_seq (hpass (by simp)) ?_
  rintro - _ rfl
  refine well_seq (hpass (by simp [hnew])) ?_
  rintro - w rfl
  -- the header is written over the old one
  refine well_seq (well_wrapErr (well_dataWriteAt hE hlog hdata hopen _ 0)) ?_
  rintro - _ ⟨j', rfl, hj'⟩
  have hover : j'.current = carHeader root ++ j.current.drop 59 := by
    have hheader : (putUvarint 58 ++ (X.encodeHeader [placeholderCid] ++ more.take 69)).take 1 ++
        X.encodeHeader [root] = carHeader root := by
      rw [← hvarint, List.take_left, carHeader, framed, hnew]
    rw [hj', hheader, overwrite, List.take_zero, Nat.zero_sub, List.replicate_zero, Nat.zero_add,
      length_carHeader hroot]
    rfl
  have hsync : wp F dataSync (EndsWell E fun _ u => ∃ j'' : Journal Bytes,
      u = { w with disk := { w.disk with blockLog := some j'' } } ∧ j''.current = j'.current)
      { w with disk := { w.disk with blockLog := some j' } } := by
    simp only [dataSync, openData, wp_bind, wp_get, hdata, hopen, if_true, wp_ret, wp_ioWrite]
    exact ⟨⟨j'.sync, rfl, by simp⟩, hE, fun _ => trivial⟩
  refine well_seq (well_wrapErr hsync) ?_
  rintro - _ ⟨j'', rfl, hj''⟩
  exact ⟨rfl, j'', rfl, hj''.trans hover⟩

end CarLog

/-! ## The generation -/

/-- **A log that a top tree can be generated of**: it takes no writes, and
is made of blocks, one at least. -/
structure Ripe (E : Prop) (bs : List Block) (w : World) : Prop where
  tail : Tailed E False [] (stream (pieces bs)) w
  wIdx : w.jb.wIdx = none
  dataLen : w.jb.dataLen = (stream (pieces bs)).length
  dataStart : w.jb.dataStart = headerBytes.length
  dataEnd : w.jb.dataEnd = 0
  headOpen : w.jb.head = some true
  readStateLk : w.jb.readStateLk = false
  head : E ∨ ∃ h, w.disk.head = some (some h) ∧ h.valid = true
  regular : ∀ b ∈ bs, b.Regular
  ne : bs ≠ []

omit X in
/-- The header was written over. -/
theorem Ahead.header {file p : Bytes} {offs : List ℕ} {rest : ℕ → List (Cid × Bytes)}
    (h : Ahead file offs rest) (hp : p.length = 59) (hoffs : ∀ off ∈ offs, 59 ≤ off) :
    Ahead (p ++ file.drop 59) offs rest := by
  intro k hk
  obtain ⟨off, hoff, hpre⟩ := h k hk
  have hle := hoffs off (List.mem_of_getElem? hoff)
  obtain ⟨n, rfl⟩ := Nat.exists_eq_add_of_le hle
  refine ⟨59 + n, hoff, ?_⟩
  rwa [← hp, ← List.drop_drop, List.drop_left, hp, List.drop_drop]

theorem le_of_mem_starts {ts : List (BlockTree d)} {off : ℕ} (h : off ∈ starts ts) : 59 ≤ off := by
  obtain ⟨k, -, rfl⟩ := List.mem_map.mp h
  rw [layersOf, List.length_append, length_headerBytes]
  omega

/-- The first layer starts behind the header. -/
theorem set_starts (ts : List (BlockTree d)) : ((starts ts).set 0 0).set 0 59 = starts ts := by
  have hzero : layersOf 0 ts = headerBytes := List.append_nil _
  rw [List.set_set, starts, List.range_succ_eq_map, List.map_cons, hzero, length_headerBytes,
    List.set_cons_zero]

/-- One tree is left when there are blocks. -/
theorem Stacked.single {bs : List Block} {ts : List (BlockTree (d + 1))} {next : List Cid}
    {offs : List ℕ} (h : Stacked E bs w₀ ts next offs w) (hne : bs ≠ []) (hone : ts.length ≤ 1) :
    ∃ t, ts = [t] ∧ EvenTree.IsTop arity bs t := by
  cases ts with
  | nil => exact absurd h.leaves.symm hne
  | cons t ts =>
    have hnil : ts = [] := by
      rw [List.length_cons] at hone
      exact List.length_eq_zero_iff.mp (by omega)
    subst hnil
    refine ⟨t, rfl, ?_, h.packed, ?_⟩
    · have := h.leaves
      rwa [List.flatMap_singleton] at this
    · have := h.least
      rwa [show EvenTree.children [t] = EvenTree.trees t from List.flatMap_singleton _ _] at this

/-- The tree takes more than the 128 bytes that are looked at. -/
theorem length_layersOf {bs : List Block} {t : BlockTree (d + 1)} (h : EvenTree.IsTop arity bs t)
    (hne : bs ≠ []) (hregular : ∀ b ∈ bs, b.Regular) : 128 ≤ (layersOf (d + 2) [t]).length := by
  have hleaves : [t].flatMap EvenTree.leaves = bs := by
    rw [List.flatMap_singleton, h.leaves]
  have hbelow := (stream_isPrefix_layersOf hleaves d).length_le
  obtain ⟨b, bs', rfl⟩ := List.exists_cons_of_ne_nil hne
  -- an entry has a CID, and the root a link
  have hentry : 96 ≤ (stream (pieces (b :: bs'))).length := by
    have hcid : (Cid.mk raw b.hash).bytes.length = 36 :=
      length_bytes (Or.inl rfl) (hregular b List.mem_cons_self).hash
    have hlt := lt_frameSize (payload b.hash b.data).length
    rw [stream, pieces, List.map_cons, List.flatMap_cons, List.length_append, List.length_append,
      Piece.bytes, length_framed, length_headerBytes]
    rw [payload, List.length_append, hcid] at hlt ⊢
    omega
  have htrees := (h.packed.branching arity_pos t (List.mem_singleton_self t))
  have hroot : 37 ≤ (entries [t.root]).length := by
    have hsound := (BlockTree.sound htrees (by rwa [h.leaves])).1
    have hcid := length_bytes hsound.codec hsound.hash
    have hlt := lt_frameSize (t.root.1.bytes ++ t.root.2).length
    have hone : (entries [t.root]).length = frameSize (t.root.1.bytes ++ t.root.2).length := by
      simp [entries]
    rw [hone]
    rw [List.length_append, hcid] at hlt ⊢
    omega
  have hlast : layersOf (d + 2) [t] = layersOf (d + 1) [t] ++ entries [t.root] := by
    rw [layersOf_succ, List.flatMap_singleton, BlockTree.layer_self]
  rw [hlast, List.length_append]
  omega

namespace CarLog

omit X in
theorem well_flushBuffered (hE : Failing F → E) {T : Bytes} (h : Tailed E False T S w) :
    wp F flushBuffered (EndsWell E fun _ w' => FileOnly w w' ∧
      ∃ j f e, Tail E False T S j f ⟨[], e⟩ w') w :=
  wp_mono (wp_flushBuffered hE h) (fun _ _ => id) (fun _ _ h => h.1) (fun _ _ => trivial)
    fun _ _ => id

omit X in
theorem well_dataSync (hE : Failing F → E) {T : Bytes} {j : Journal Bytes} {f : DataFile}
    {e : Option Err} (h : Tail E False T S j f ⟨[], e⟩ w) :
    wp F dataSync (EndsWell E fun _ w' => FileOnly w w' ∧
      ∃ j', Tail E False S S j' f ⟨[], e⟩ w') w :=
  wp_mono (wp_dataSync hE h) (fun _ _ => id) (fun _ _ h => h.1) (fun _ _ => trivial) fun _ _ => id

omit X in
/-- What was buffered comes to be in the file. -/
theorem well_flushSync (hE : Failing F → E) {α : Type} {T : Bytes} (h : Tailed E False T S w)
    {s s' : String} {R : α → World → Prop} {m : Op α} (hm : ∀ u j f e, FileOnly w u →
      Tail E False S S j f ⟨[], e⟩ u → wp F m (EndsWell E R) u) :
    wp F (do
      wrapErr s flushBuffered
      wrapErr s' dataSync
      m) (EndsWell E R) w := by
  refine well_seq (well_wrapErr (well_flushBuffered hE h)) ?_
  rintro - u ⟨honly, j, f, e, ht⟩
  refine well_seq (well_wrapErr (well_dataSync hE ht)) ?_
  rintro - v ⟨honly', j', ht'⟩
  exact hm v j' f e (honly.trans honly') ht'

omit X in
/-- The head is changed. -/
theorem well_mutHead (hE : Failing F → E) {f : Head → Head} (hopen : w.jb.head = some true)
    (hhead : E ∨ ∃ h, w.disk.head = some (some h) ∧ h.valid = true) :
    wp F (mutHead fun h => .ok (f h)) (EndsWell E fun _ u => ∃ h, w.disk.head = some (some h) ∧
      u = withHead (some (some (f h))) w) w := by
  refine wp_mono (wp_mutHead hopen) ?_ ?_ (fun _ _ => trivial) fun _ _ => id
  · rintro h u ⟨hh, h', hok, rfl⟩
    obtain rfl := Except.ok.inj hok
    exact ⟨h, hh, rfl⟩
  · rintro e u (⟨-, h, -, hbad⟩ | ⟨-, hf | hinvalid, -⟩)
    · exact absurd hbad (by simp)
    · exact hE hf
    · rcases hhead with he | ⟨h, hh, hvalid⟩
      · exact he
      · have := hinvalid h hh
        rw [hvalid] at this
        exact absurd this (by simp)

/-- **The end of the generation**: the tree is written, and its root and its
layers are made known. -/
theorem well_storeTop (hE : Failing F → E) {bs : List Block} {t : BlockTree (d + 1)}
    {next : List Cid} {offs : List ℕ} {dataEnd : ℕ} (h : Stacked E bs w₀ [t] next offs w)
    (htop : EvenTree.IsTop arity bs t) (hne : bs ≠ []) (hregular : ∀ b ∈ bs, b.Regular)
    (hopen : w.jb.head = some true) (hlk : w.jb.readStateLk = false)
    (hhead : E ∨ ∃ h, w.disk.head = some (some h) ∧ h.valid = true) :
    wp F (do
      wrapErr "flushing buffered data" flushBuffered
      wrapErr "sync data" dataSync
      let first ← updateHeader t.root.1
      let layerOffsets := offs.set 0 first
      lockReadState
      modifyJb fun j => { j with layerOffsets := layerOffsets }
      .get fun w => do
        let r ← attempt (mutHead fun h => .ok
          { h with layerOffsets := layerOffsets, dataEnd := dataEnd, retiredAt := w.jb.dataLen })
        unlockReadState
        match r with
        | .ok _ => .ret ()
        | .error e => .throw e)
      (EndsWell E fun _ w' => HasTree t w' ∧ w'.jb.readStateLk = false) w := by
  have hbranch := htop.packed.branching arity_pos t (List.mem_singleton_self t)
  have hsound := (BlockTree.sound hbranch (by rwa [htop.leaves])).1
  refine well_flushSync hE h.built.tail fun u j f e honly ht => ?_
  obtain ⟨log, data, pos, buffered, rfl⟩ := honly
  have hfile : layersOf (d + 2) [t] <+: j.current := by
    have := ht.stream
    rwa [List.append_nil] at this
  refine well_seq (well_updateHeader hE ht.log ht.data ht.isOpen
    ((List.prefix_append _ _).trans hfile) ((length_layersOf htop hne hregular).trans hfile.length_le)
    (length_bytes hsound.codec hsound.hash)) ?_
  rintro _ _ ⟨rfl, j', rfl, hj'⟩
  rw [h.offs, set_starts]
  -- the layers are made known to the readers, and then stored
  refine well_seq (R := fun _ v => v = { w with
    disk := { w.disk with blockLog := some j' }
    jb := { w.jb with
      data := data, dataPos := pos, dataBuffered := buffered, readStateLk := true } })
    ?_ ?_
  · unfold lockReadState
    rw [wp_get, if_neg (by simp [hlk])]
    rfl
  rintro - _ rfl
  refine well_seq (R := fun _ v => v = { w with
    disk := { w.disk with blockLog := some j' }
    jb := { w.jb with
      data := data, dataPos := pos, dataBuffered := buffered, readStateLk := true,
      layerOffsets := starts [t] } }) rfl ?_
  rintro - _ rfl
  rw [wp_get]
  dsimp only
  rw [wp_bind, wp_attempt]
  -- the lock is given back in any case
  have hunlock : ∀ x, wp F unlockReadState (EndsWell E fun _ v => v = { w with
      disk := { w.disk with blockLog := some j', head := x }
      jb := { w.jb with
        data := data, dataPos := pos, dataBuffered := buffered, readStateLk := false,
        layerOffsets := starts [t] } })
      { w with
        disk := { w.disk with blockLog := some j', head := x }
        jb := { w.jb with
          data := data, dataPos := pos, dataBuffered := buffered, readStateLk := true,
          layerOffsets := starts [t] } } := by
    intro x
    unfold unlockReadState
    rw [wp_get, if_pos rfl]
    rfl
  refine wp_mono (wp_mutHead hopen) ?_ ?_ (fun _ _ => trivial) fun _ _ => id
  · rintro hd u ⟨-, h', -, rfl⟩
    refine well_seq (hunlock _) ?_
    rintro - _ rfl
    refine ⟨⟨⟨f, ht.data, ht.isOpen⟩, by simp [starts], ?_, hbranch, by rwa [htop.leaves]⟩, rfl⟩
    have hahead := (ahead_starts hfile).header (p := carHeader t.root.1)
      (length_carHeader (length_bytes hsound.codec hsound.hash)) fun off => le_of_mem_starts
    rw [← hj'] at hahead
    exact hahead.congr fun k => List.flatMap_singleton _ _
  · rintro e u (⟨-, hd, -, hbad⟩ | ⟨-, hcause, hleft⟩)
    · exact absurd hbad (by simp)
    · have he : E := by
        rcases hcause with hf | hinvalid
        · exact hE hf
        · rcases hhead with he | ⟨hd, hhd, hvalid⟩
          · exact he
          · exact absurd hvalid (by simp [hinvalid hd hhd])
      rcases hleft with (rfl | ⟨_, _, -, -, rfl⟩) | rfl
      · exact well_seq (hunlock w.disk.head) fun _ _ _ => he
      · exact well_seq (hunlock _) fun _ _ _ => he
      · exact well_seq (hunlock _) fun _ _ _ => he

/-- **`genTopCar`** makes the canonical tree of the blocks, unless a step
fails. -/
theorem well_genTopCar (hE : Failing F → E) {bs : List Block} (h : Ripe E bs w) :
    wp F genTopCar (EndsWell E fun _ w' => ∃ d, ∃ t : BlockTree (d + 1),
      EvenTree.IsTop arity bs t ∧ HasTree t w' ∧ w'.jb.readStateLk = false) w := by
  unfold genTopCar
  rw [wp_get]
  have hpass : ∀ {c : Prop} [Decidable c] {e : Err} {u : World}, ¬ c →
      wp F (failIf c e) (EndsWell E fun _ v => v = u) u := fun hc =>
    wp_failIf.mpr ⟨fun h => absurd h hc, fun _ => rfl⟩
  refine well_seq (hpass (by rw [h.wIdx]; simp)) ?_
  rintro - _ rfl
  refine well_flushSync hE h.tail fun u j f e honly ht => ?_
  rw [wp_get]
  obtain ⟨log, data, pos, buffered, rfl⟩ := honly
  -- nothing was generated before
  refine well_seq (R := fun _ v => v = _) (wp_runIf.mpr
    ⟨fun hend => absurd h.dataEnd hend, fun _ => rfl⟩) ?_
  rintro - _ rfl
  rw [wp_bind, wp_modifyJb]
  refine well_seq (well_wrapErr (well_mutHead hE h.headOpen h.head)) ?_
  rintro - u ⟨hd, hhd, rfl⟩
  generalize hv : withHead _ _ = v
  have hbuilt : Built E (stream (pieces bs)) v v := by
    subst hv
    exact ⟨⟨j, f, ⟨[], e⟩, { ht with
      durable := ⟨List.nil_prefix, fun _ _ => List.nil_prefix⟩ }⟩, h.dataLen, AppendOnly.refl _⟩
  have hfile : stream (pieces bs) <+: blockLog v := by
    have hcur := ht.stream
    rw [List.append_nil] at hcur
    have hlog := ht.log
    dsimp only at hlog
    rwa [← hv, blockLog, withHead, hlog]
  dsimp only
  rw [h.dataLen]
  -- the layer over the blocks
  refine well_seq (well_wrapErr (well_iterate hE hbuilt h.regular (by rw [← hv]; exact h.dataStart)
    hfile)) ?_
  intro ls u hu
  refine well_seq (well_finishLayer hE hu) ?_
  rintro _ u' ⟨rfl, hu'⟩
  have hfirst : Stacked (d := 0) E bs v (EvenTree.grow arity (EvenTree.ofLeaves bs))
      (links (EvenTree.grow arity (EvenTree.ofLeaves bs))) [0, (stream (pieces bs)).length] u' := by
    refine ⟨?_, ?_, Or.inl rfl, rfl, ?_, ?_⟩
    · rw [← EvenTree.flatMap_leaves_children, EvenTree.children_grow arity_pos,
        EvenTree.flatMap_leaves_ofLeaves]
    · exact EvenTree.packed_grow arity_pos trivial
    · rw [starts_grow arity_pos, layersOf_ofLeaves]
      rfl
    · rw [layersOf_grow_succ arity_pos, layersOf_ofLeaves]
      exact hu'
  -- and the ones over it
  refine well_seq (well_genLayers hE _ hfirst (by rw [links, List.length_map]; omega)) ?_
  rintro ⟨next, offs⟩ u'' ⟨d, ts, hone, hst⟩
  obtain ⟨t, rfl, htop⟩ := hst.single h.ne hone
  have hnext : next = [t.root.1] := hst.next
  subst hnext
  obtain ⟨_, _, _, _, _, _, rfl⟩ := hst.built.only
  refine well_mono (well_storeTop hE hst htop h.ne h.regular ?_ ?_ ?_) ?_
  · rw [← hv]
    exact h.headOpen
  · rw [← hv]
    exact h.readStateLk
  · rcases h.head with he | ⟨hd', hhd', hvalid⟩
    · exact Or.inl he
    · obtain rfl : hd' = hd := Option.some.inj (Option.some.inj (hhd'.symm.trans hhd))
      have hstored : v.disk.head =
          some (some { hd' with dataEnd := (stream (pieces bs)).length }) := by
        rw [← hv, ← h.dataLen]
        rfl
      exact Or.inr ⟨_, hstored, hvalid⟩
  · exact fun _ u' hu' => ⟨d, t, htop, hu'⟩

end CarLog

end

end Carlog

end Ribs
