import Ribs.Carlog.Buffer
import Ribs.Carlog.Stream
import Ribs.Common.EvenTree
import Ribs.Ributil.Unchanged
/-!
# Carlog — the canonical tree, and writing it out

The canonical CAR of a list of blocks is the tree over them, depth first:
the blocks are the leaves, and every node above them is a list of links.
`WriteCar` gets at it through one reader for every layer of the file. What
is ahead of the readers of the lower layers is what lies below the nodes
that the readers above have still ahead of them.
-/

namespace Ribs

open Common

namespace Carlog

open Ributil (entries entries_append entries_cons)

/-! ## The blocks of a tree -/

/-- **A tree over blocks**, with all of them at height `d`. -/
abbrev BlockTree (d : ℕ) := EvenTree Block d

/-- A block as it is in the CAR. -/
def leafBlock (b : Block) : Cid × Bytes := (⟨raw, b.hash⟩, b.data)

section

variable [X : External]

/-- The block that links to others. -/
def linkBlock (bs : List (Cid × Bytes)) : Cid × Bytes :=
  (nodeCid (X.encodeLinks (bs.map Prod.fst)), X.encodeLinks (bs.map Prod.fst))

namespace BlockTree

variable {d : ℕ}

/-- The root block. -/
def root (t : BlockTree d) : Cid × Bytes := EvenTree.label leafBlock linkBlock t

/-- **The blocks, depth first.** -/
def blocks (t : BlockTree d) : List (Cid × Bytes) := EvenTree.preorder leafBlock linkBlock t

/-- The blocks of a layer of the file. -/
def layer (k : ℕ) (t : BlockTree d) : List (Cid × Bytes) := EvenTree.level leafBlock linkBlock k t

/-- What a layer has below the root. -/
def lower (k : ℕ) (t : BlockTree d) : List (Cid × Bytes) := EvenTree.below leafBlock linkBlock k t

/-- **The canonical CAR.** -/
def car (t : BlockTree d) : Bytes := carHeader t.root.1 ++ entries t.blocks

end BlockTree

/-- **A block that can be written and read back.** -/
structure Sound (b : Cid × Bytes) : Prop where
  codec : b.1.codec = raw ∨ b.1.codec = dagCBOR
  hash : IsSha256 b.1.hash
  length : (b.1.bytes ++ b.2).length < 2 ^ 23
  /-- A block that is not data is a list of links. -/
  links : b.1.codec ≠ raw → ∃ links, links ≠ [] ∧ X.decodeLinks b.2 = some links

/-- A block of data, of a hash and a length that a CAR can have. -/
structure Block.Regular (b : Block) : Prop where
  hash : IsSha256 b.hash
  length : (payload b.hash b.data).length < 2 ^ 23

theorem Block.Regular.sound {b : Block} (h : b.Regular) : Sound (leafBlock b) where
  codec := Or.inl rfl
  hash := h.hash
  length := h.length
  links := fun hne => absurd rfl hne

omit X in
theorem isSha256_length {m : Multihash} (h : IsSha256 m) : m.length = 34 := by
  obtain ⟨d, rfl⟩ := h
  have hd := d.2
  rw [sha256Multihash, List.length_cons, List.length_cons, hd]

omit X in
/-- The length of a CID with a SHA-256 sum. -/
theorem length_bytes {c : Cid} (hcodec : c.codec = raw ∨ c.codec = dagCBOR) (hm : IsSha256 c.hash) :
    c.bytes.length = 36 := by
  have hlen := isSha256_length hm
  obtain ⟨codec, m⟩ := c
  rcases hcodec with hc | hc <;> simp only at hc hlen <;> subst hc <;>
    simp [Cid.bytes, raw, dagCBOR, putUvarint, putUvarintAux, maxVarintLen64, hlen]

theorem isSha256_nodeCid (data : Bytes) : IsSha256 (nodeCid data).hash := ⟨_, rfl⟩

/-- The links of a block that links to sound ones. -/
theorem forall_links {bs : List (Cid × Bytes)} (h : ∀ b ∈ bs, Sound b) :
    ∀ c ∈ bs.map Prod.fst, (c.codec = raw ∨ c.codec = dagCBOR) ∧ IsSha256 c.hash := by
  intro c hc
  obtain ⟨b, hb, rfl⟩ := List.mem_map.mp hc
  exact ⟨(h b hb).codec, (h b hb).hash⟩

theorem decodeLinks_linkBlock {bs : List (Cid × Bytes)} (hlen : bs.length ≤ arity)
    (h : ∀ b ∈ bs, Sound b) : X.decodeLinks (linkBlock bs).2 = some (bs.map Prod.fst) :=
  X.decodeLinks_encodeLinks _ (by rwa [List.length_map]) (forall_links h)

/-- How long it is. -/
theorem length_linkBlock {bs : List (Cid × Bytes)} (hlen : bs.length ≤ arity)
    (h : ∀ b ∈ bs, Sound b) : 41 * bs.length < (linkBlock bs).2.length ∧
      (linkBlock bs).2.length ≤ 41 * bs.length + 9 := by
  have hlinks := X.length_encodeLinks (bs.map Prod.fst) (by rwa [List.length_map]) (forall_links h)
  rwa [List.length_map] at hlinks

/-- **What links to sound blocks is sound.** -/
theorem sound_linkBlock (bs : List (Cid × Bytes)) (hne : bs ≠ []) (hlen : bs.length ≤ arity)
    (h : ∀ b ∈ bs, Sound b) : Sound (linkBlock bs) where
  codec := Or.inr rfl
  hash := isSha256_nodeCid _
  length := by
    have hmax : arity = 2048 := rfl
    have hcid : (linkBlock bs).1.bytes.length = 36 := length_bytes (Or.inr rfl) (isSha256_nodeCid _)
    have hdata := (length_linkBlock hlen h).2
    rw [List.length_append, hcid]
    omega
  links := fun _ => ⟨_, fun hnil => hne (List.map_eq_nil_iff.mp hnil), decodeLinks_linkBlock hlen h⟩

namespace BlockTree

variable {d : ℕ} {t : BlockTree d}

/-- **The blocks of a tree** over regular blocks are sound. -/
theorem sound (ht : EvenTree.Branching arity t) (hleaf : ∀ b ∈ EvenTree.leaves t, b.Regular) :
    Sound t.root ∧ ∀ b ∈ t.blocks, Sound b :=
  EvenTree.forall_preorder sound_linkBlock ht fun b hb => (hleaf b hb).sound

/-- The CAR of a tree of one node and blocks. -/
theorem layer_self (t : BlockTree d) : t.layer d = [t.root] := EvenTree.level_self t

theorem lower_self (t : BlockTree d) : t.lower d = [] := EvenTree.below_self t

theorem lower_of_ne {k : ℕ} (t : BlockTree d) (h : k ≠ d) : t.lower k = t.layer k :=
  EvenTree.below_of_ne t h

end BlockTree

/-! ## Reading the layers -/

variable {E : Prop} {F : Fates} {w : World} {file : Bytes} {offs : List ℕ} {k off : ℕ}
  {rest rest' : ℕ → List (Cid × Bytes)} {b : Cid × Bytes} {bs : List (Cid × Bytes)}

/-- **What the readers of the layers have ahead of them.** -/
def Ahead (file : Bytes) (offs : List ℕ) (rest : ℕ → List (Cid × Bytes)) : Prop :=
  ∀ k, rest k ≠ [] → ∃ off, offs[k]? = some off ∧ entries (rest k) <+: file.drop off

namespace Ahead

omit X in
theorem congr (h : Ahead file offs rest) (heq : ∀ k, rest k = rest' k) : Ahead file offs rest' := by
  intro k hne
  rw [← heq k] at hne ⊢
  exact h k hne

omit X in
/-- Less is ahead of them too. -/
theorem of_append (h : Ahead file offs fun k => rest k ++ rest' k) : Ahead file offs rest := by
  intro k hne
  obtain ⟨off, hoff, hpre⟩ := h k fun hnil => hne (List.append_eq_nil_iff.mp hnil).1
  rw [entries_append] at hpre
  exact ⟨off, hoff, (List.prefix_append _ _).trans hpre⟩

omit X in
/-- A reader moves on by an entry. -/
theorem next (h : Ahead file offs rest) (hrest : rest k = b :: bs) (hoff : offs[k]? = some off)
    (hsame : ∀ i, i ≠ k → rest' i = rest i) (hmore : rest' k = bs) :
    Ahead file (offs.set k (off + (entries [b]).length)) rest' := by
  intro i hne
  by_cases hi : i = k
  · subst hi
    obtain ⟨off', hoff', hpre⟩ := h i (by rw [hrest]; simp)
    obtain rfl : off = off' := Option.some.inj (hoff.symm.trans hoff')
    have hlt : i < offs.length := (List.getElem?_eq_some_iff.mp hoff).1
    refine ⟨off + (entries [b]).length, by rw [List.getElem?_set_self hlt], ?_⟩
    rw [hmore, ← List.drop_drop]
    have hsplit : entries (b :: bs) = entries [b] ++ entries bs := entries_append [b] bs
    obtain ⟨tail, htail⟩ := hpre
    rw [hrest, hsplit, List.append_assoc] at htail
    rw [← htail, List.drop_left]
    exact List.prefix_append _ _
  · rw [hsame i hi] at hne ⊢
    obtain ⟨off', hoff', hpre⟩ := h i hne
    exact ⟨off', by rwa [List.getElem?_set_ne (Ne.symm hi)], hpre⟩

end Ahead

/-! ## Programs that end well -/

/-- A result, or an error only if `E`; nothing is said of a process that
dies. -/
def EndsWell {α : Type} (E : Prop) (R : α → World → Prop) : Post World Err α :=
  ⟨R, fun _ _ => E, fun _ => True, fun _ _ => False⟩

section

variable {α β : Type} {m : Op α} {R R' : α → World → Prop} {U : β → World → Prop}

omit X in
theorem well_mono (h : wp F m (EndsWell E R) w) (himp : ∀ a t, R a t → R' a t) :
    wp F m (EndsWell E R') w :=
  wp_mono h himp (fun _ _ => id) (fun _ => id) fun _ _ => id

omit X in
theorem well_seq {f : α → Op β} (h : wp F m (EndsWell E R) w)
    (hok : ∀ a t, R a t → wp F (f a) (EndsWell E U) t) : wp F (m >>= f) (EndsWell E U) w :=
  wp_seq h hok (fun _ _ => id) (fun _ => id) fun _ _ => id

omit X in
theorem well_wrapErr {s : String} (h : wp F m (EndsWell E R) w) :
    wp F (wrapErr s m) (EndsWell E R) w := by
  rw [wp_wrapErr]
  exact h

end

/-- Only what was written to the output differs. -/
structure Emitted (p : Bytes) (w w' : World) : Prop where
  eq : w' = { w with out := w.out ++ p }

namespace Emitted

variable {p q : Bytes} {w' w'' : World}

omit X in
theorem trans (h : Emitted p w w') (h' : Emitted q w' w'') : Emitted (p ++ q) w w'' := by
  obtain ⟨rfl⟩ := h
  obtain ⟨rfl⟩ := h'
  exact ⟨by simp⟩

omit X in
theorem nil : Emitted [] w w := ⟨by simp⟩

omit X in
theorem jb (h : Emitted p w w') : w'.jb = w.jb := by rw [h.eq]

omit X in
theorem blockLog (h : Emitted p w w') : CarLog.blockLog w' = CarLog.blockLog w := by
  rw [h.eq]
  rfl

end Emitted

namespace CarLog

omit X in
theorem well_writeOutput (hE : Failing F → E) (p : Bytes) :
    wp F (writeOutput p) (EndsWell E fun _ => Emitted p w) w :=
  ⟨⟨rfl⟩, fun n hn => hE ⟨n, hn⟩, fun _ => trivial⟩

/-- **A block is read** off its layer. -/
theorem well_readNode (hE : Failing F → E) {f : DataFile} (hdata : w.jb.data = some f)
    (hopen : f.isOpen = true)
    (hb : Sound b) (hpre : entries (b :: bs) <+: (blockLog w).drop off) :
    wp F (readNode off)
      (EndsWell E fun x w' => w' = w ∧ x = (b.1, b.2, off + (entries [b]).length)) w := by
  obtain ⟨tail, htail⟩ := hpre
  have hcode : ValidMultihash b.1.hash := Encoding.validMultihash_of_isSha256 hb.hash
  have hlen := hb.length
  have hmax : maxAllowedSectionSize = 33554432 := rfl
  have hframe : readFrame maxAllowedSectionSize ((blockLog w).drop off) =
      .ok (b.1.bytes ++ b.2, entries bs ++ tail) := by
    rw [← htail, entries_cons, List.append_assoc]
    exact readFrame_framed (by omega) (by omega) _
  have hcid : X.cidFromBytes (b.1.bytes ++ b.2) = some (b.1.bytes.length, b.1) :=
    X.cidFromBytes_bytes b.1.codec b.1.hash b.2 hb.codec hcode
  have hone : (entries [b]).length = frameSize (b.1.bytes ++ b.2).length := by
    simp [entries]
  simp only [readNode, openData, wp_bind, wp_get, hdata, hopen, if_true, wp_ret, wp_ioRead]
  refine ⟨?_, hE, fun _ => trivial⟩
  simp only [hframe, hcid, wp_ret, List.drop_left, hone]
  exact ⟨rfl, rfl⟩

omit X in
theorem well_writeBlock (hE : Failing F → E) (s : CarWriter) (c : Cid) (data : Bytes) :
    wp F (wrapErr "writing node" (writeBlock s c data)) (EndsWell E fun s' w' =>
      Emitted (entries [(c, data)]) w w' ∧
        s' = { s with size := s.size + (entries [(c, data)]).length }) w := by
  have hone : entries [(c, data)] = framed (c.bytes ++ data) := by simp [entries]
  rw [hone]
  refine well_wrapErr (well_seq (well_writeOutput hE _) ?_)
  intro _ t ht
  exact ⟨ht, rfl⟩

/-- What a writer does that writes `bs` and leaves `rest` to its readers. -/
def Wrote (bs : List (Cid × Bytes)) (rest : ℕ → List (Cid × Bytes)) (s : CarWriter) (w : World)
    (s' : CarWriter) (w' : World) : Prop :=
  Emitted (entries bs) w w' ∧ s'.size = s.size + (entries bs).length ∧
    Ahead (blockLog w) s'.layers rest

variable {f : DataFile}

/-- The links of a block of links. -/
theorem well_nodeLinks {bs : List (Cid × Bytes)} (hlen : bs.length ≤ arity)
    (h : ∀ b ∈ bs, Sound b) : wp F (nodeLinks (linkBlock bs).1 (linkBlock bs).2)
      (EndsWell E fun links w' => w' = w ∧ links = bs.map Prod.fst) w := by
  have hnode : (linkBlock bs).1.codec ≠ raw := by
    show dagCBOR ≠ raw
    decide
  unfold nodeLinks
  rw [if_neg hnode, decodeLinks_linkBlock hlen h]
  exact ⟨rfl, rfl⟩

/-- `writeNode` writes out the trees of a height, when the layers have what
is below their roots. -/
def WritesTrees (E : Prop) (F : Fates) (f : DataFile) (d : ℕ) : Prop :=
  ∀ (w : World) (t : BlockTree d) (more : ℕ → List (Cid × Bytes)) (s : CarWriter),
    w.jb.data = some f → EvenTree.Branching arity t → (∀ b ∈ EvenTree.leaves t, b.Regular) →
    Ahead (blockLog w) s.layers (fun k => t.lower k ++ more k) →
    wp F (writeNode d s t.root.1 t.root.2)
      (EndsWell E fun s' w' => Wrote t.blocks more s w s' w') w

/-- One link of a node: the next node of the layer below, and what is below
that. -/
def copyNode (atLayer : ℕ) (s : CarWriter) (ci : Cid) : Op CarWriter := do
  let off ← deref s.layers[atLayer]?
  let (c, data, next) ← wrapErr "reading node" (readNode off)
  failIf (c ≠ ci) (.text "expected cid")
  writeNode atLayer { s with layers := s.layers.set atLayer next } c data

theorem writeNode_succ (atLayer : ℕ) (s : CarWriter) (c : Cid) (data : Bytes) :
    writeNode (atLayer + 1) s c data = (do
      let s ← wrapErr "writing node" (writeBlock s c data)
      let links ← nodeLinks c data
      links.foldlM (copyNode atLayer) s) := rfl

section

variable {d : ℕ} {more : ℕ → List (Cid × Bytes)} {s s' s'' : CarWriter} {w' w'' : World}

omit X in
theorem Wrote.trans {bs' : List (Cid × Bytes)} {rest rest' : ℕ → List (Cid × Bytes)}
    (h : Wrote bs rest s w s' w') (h' : Wrote bs' rest' s' w' s'' w'') :
    Wrote (bs ++ bs') rest' s w s'' w'' := by
  obtain ⟨hout, hsize, -⟩ := h
  obtain ⟨hout', hsize', hahead⟩ := h'
  refine ⟨?_, ?_, ?_⟩
  · rw [entries_append]
    exact hout.trans hout'
  · rw [entries_append, List.length_append]
    omega
  · rwa [hout.blockLog] at hahead

/-- **A tree that is next in its layer** is copied. -/
theorem well_copyNode (hE : Failing F → E) (ih : WritesTrees E F f d) {t : BlockTree d}
    (hdata : w.jb.data = some f) (hopen : f.isOpen = true) (ht : EvenTree.Branching arity t)
    (hleaf : ∀ b ∈ EvenTree.leaves t, b.Regular)
    (hahead : Ahead (blockLog w) s.layers fun k => t.layer k ++ more k) :
    wp F (copyNode d s t.root.1) (EndsWell E fun s' w' => Wrote t.blocks more s w s' w') w := by
  have hnext : t.layer d ++ more d = t.root :: more d := by
    rw [BlockTree.layer_self]
    rfl
  obtain ⟨off, hoff, hpre⟩ := hahead d (by simp only [hnext]; simp)
  simp only [hnext] at hpre
  unfold copyNode
  rw [hoff]
  refine well_seq (R := fun o u => o = off ∧ u = w) ⟨rfl, rfl⟩ ?_
  rintro _ _ ⟨rfl, rfl⟩
  refine well_seq (well_wrapErr (well_readNode hE hdata hopen (BlockTree.sound ht hleaf).1 hpre)) ?_
  rintro _ u ⟨rfl, rfl⟩
  dsimp only
  refine well_seq (R := fun _ v => v = u)
    (wp_failIf.mpr ⟨fun hne => absurd rfl hne, fun _ => rfl⟩) ?_
  rintro - _ rfl
  -- the reader of the layer is behind the root now
  refine ih _ t more _ hdata ht hleaf ?_
  refine hahead.next hnext hoff (fun i hi => ?_) ?_
  · rw [BlockTree.lower_of_ne t hi]
  · rw [BlockTree.lower_self]
    rfl

/-- The trees below a root, one after the other. -/
theorem well_copyNodes (hE : Failing F → E) (ih : WritesTrees E F f d) (hopen : f.isOpen = true)
    (ts : List (BlockTree d))
    (hdata : w.jb.data = some f) (ht : ∀ t ∈ ts, EvenTree.Branching arity t)
    (hleaf : ∀ t ∈ ts, ∀ b ∈ EvenTree.leaves t, b.Regular)
    (hahead : Ahead (blockLog w) s.layers fun k => ts.flatMap (BlockTree.layer k) ++ more k) :
    wp F (((ts.map BlockTree.root).map Prod.fst).foldlM (copyNode d) s)
      (EndsWell E fun s' w' => Wrote (ts.flatMap BlockTree.blocks) more s w s' w') w := by
  induction ts generalizing s w with
  | nil => exact ⟨.nil, rfl, hahead⟩
  | cons t ts ihs =>
    rw [List.map_cons, List.map_cons, List.foldlM_cons]
    have hcons : Ahead (blockLog w) s.layers
        fun k => t.layer k ++ (ts.flatMap (BlockTree.layer k) ++ more k) :=
      hahead.congr fun k => by rw [List.flatMap_cons, List.append_assoc]
    refine well_seq (well_copyNode hE ih hdata hopen (ht t List.mem_cons_self)
      (hleaf t List.mem_cons_self) hcons) fun s' w' h => ?_
    obtain ⟨hout, -, hrest⟩ := id h
    have hdata' : w'.jb.data = some f := by rwa [hout.jb]
    rw [← hout.blockLog] at hrest
    refine well_mono (ihs hdata' (fun t' h' => ht t' (List.mem_cons_of_mem _ h'))
      (fun t' h' => hleaf t' (List.mem_cons_of_mem _ h')) hrest) fun s'' w'' h' => ?_
    rw [List.flatMap_cons]
    exact h.trans h'

end

/-- **A tree is written out**, when the layers have what is below its
root. -/
theorem well_writeNode (hE : Failing F → E) (hopen : f.isOpen = true) (d : ℕ) :
    WritesTrees E F f d := by
  induction d with
  | zero =>
    intro w t more s hdata ht hleaf hahead
    unfold writeNode
    refine well_seq (well_writeBlock hE s _ _) ?_
    rintro _ u ⟨hu, rfl⟩
    have hraw : nodeLinks t.root.1 t.root.2 = .ret [] := if_pos rfl
    rw [hraw]
    exact ⟨hu, rfl, hahead.congr fun k => rfl⟩
  | succ d ih =>
    intro w t more s hdata ht hleaf hahead
    obtain ⟨hne, hlen, hall⟩ := ht
    have hleaf' : ∀ t' ∈ EvenTree.trees t, ∀ b ∈ EvenTree.leaves t', b.Regular :=
      fun t' ht' b hb => hleaf b (List.mem_flatMap.mpr ⟨t', ht', hb⟩)
    have hsound : ∀ b ∈ (EvenTree.trees t).map BlockTree.root, Sound b := by
      intro b hb
      obtain ⟨t', ht', rfl⟩ := List.mem_map.mp hb
      exact (BlockTree.sound (hall t' ht') (hleaf' t' ht')).1
    have hroot : t.root = linkBlock ((EvenTree.trees t).map BlockTree.root) := rfl
    rw [writeNode_succ]
    refine well_seq (well_writeBlock hE s _ _) fun s' u h => ?_
    obtain ⟨hu, rfl⟩ := h
    have hdata' : u.jb.data = some f := by rwa [hu.jb]
    rw [hroot]
    refine well_seq (well_nodeLinks (by rwa [List.length_map]) hsound) ?_
    rintro _ v ⟨rfl, rfl⟩
    have hahead' := hahead
    rw [← hu.blockLog] at hahead'
    refine well_mono (well_copyNodes hE ih hopen (EvenTree.trees t) hdata' hall hleaf' hahead')
      fun s'' w'' h' => ?_
    have hfirst : Wrote [t.root] (fun k => t.lower k ++ more k) s w
        { s with size := s.size + (entries [t.root]).length } v := ⟨hu, rfl, hahead⟩
    exact hfirst.trans h'

end CarLog

/-! ## `WriteCar` -/

/-- **The file has a tree**: a layer for every height, each where the log
knows it to start. -/
structure HasTree {d : ℕ} (t : BlockTree d) (w : World) : Prop where
  data : ∃ f, w.jb.data = some f ∧ f.isOpen = true
  layers : w.jb.layerOffsets.length = d + 1
  ahead : Ahead (CarLog.blockLog w) w.jb.layerOffsets fun k => t.layer k
  branching : EvenTree.Branching arity t
  regular : ∀ b ∈ EvenTree.leaves t, b.Regular

namespace CarLog

/-- **`WriteCar` emits the canonical CAR** of the tree in the file, and
changes nothing. -/
theorem well_writeCar (hE : Failing F → E) {d : ℕ} {t : BlockTree d} (h : HasTree t w)
    (hlk : w.jb.readStateLk = false) :
    wp F writeCar (EndsWell E fun x w' => x = (t.car.length, t.root.1) ∧ Emitted t.car w w') w := by
  obtain ⟨f, hdata, hopen⟩ := h.data
  have hlayers := h.layers
  have hne : w.jb.layerOffsets ≠ [] := by
    intro hnil
    rw [hnil] at hlayers
    simp at hlayers
  -- the lock is held while the offsets of the layers are taken
  have hlock : wp F lockReadState
      (EndsWell E fun _ u => u = { w with jb := { w.jb with readStateLk := true } }) w := by
    unfold lockReadState
    rw [wp_get, if_neg (by simp [hlk])]
    rfl
  have hunlock : wp F unlockReadState (EndsWell E fun _ u => u = w)
      { w with jb := { w.jb with readStateLk := true } } := by
    unfold unlockReadState
    rw [wp_get, if_pos rfl, wp_modifyJb, ← hlk]
    rfl
  unfold writeCar
  refine well_seq hlock ?_
  rintro _ _ rfl
  rw [wp_get, if_neg hne]
  refine well_seq hunlock fun _ u hu => ?_
  rw [hu]
  -- the root is the last layer
  have hlast : w.jb.layerOffsets[d]? = some (w.jb.layerOffsets.getLast?.getD 0) := by
    rw [List.getLast?_eq_getElem?, hlayers, Nat.add_sub_cancel]
    cases hd : w.jb.layerOffsets[d]? with
    | some off => rfl
    | none =>
      rw [List.getElem?_eq_none_iff] at hd
      omega
  obtain ⟨off, hoff, hpre⟩ := h.ahead d (by simp only [BlockTree.layer_self]; simp)
  rw [hlast] at hoff
  obtain rfl := Option.some.inj hoff
  simp only [BlockTree.layer_self] at hpre
  have hsound := (BlockTree.sound h.branching h.regular).1
  refine well_seq (well_wrapErr (well_readNode hE hdata hopen hsound hpre)) ?_
  rintro _ u ⟨rfl, rfl⟩
  dsimp only
  refine well_seq (well_wrapErr (well_writeOutput hE _)) fun _ v hv => ?_
  have hahead : Ahead (blockLog v) u.jb.layerOffsets fun k => t.lower k ++ [] := by
    rw [hv.blockLog]
    intro k hk
    by_cases hkd : k = d
    · subst hkd
      simp only [BlockTree.lower_self] at hk
      exact absurd rfl hk
    · simp only [BlockTree.lower_of_ne t hkd, List.append_nil] at hk ⊢
      exact h.ahead k hk
  have hnode := well_writeNode hE hopen d v t (fun _ => [])
    ⟨u.jb.layerOffsets, (carHeader t.root.1).length⟩ (by rwa [hv.jb]) h.branching h.regular hahead
  rw [hlayers, Nat.add_sub_cancel]
  refine well_seq (well_wrapErr hnode) fun s w' hw => ?_
  obtain ⟨hout, hsize, -⟩ := hw
  refine ⟨?_, hv.trans hout⟩
  rw [hsize, BlockTree.car, List.length_append]

end CarLog

end

end Carlog

end Ribs
