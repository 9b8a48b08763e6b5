import Isel.Proofs.Printing

/-! Reading what was written. The lines of a graph lead the reader through the same blocks, nodes and
edges again, and every name in them is found where it was written: the names of blocks are told from
those of nodes, and literals from both. -/

namespace Isel

open Text

namespace Draft

/-- A node of a draft, wherever its operands stand in the text. -/
structure Entry where
  block : Nat
  name : List Char
  op : Operator
  tokens : List (List Char)

def Line.entry (line : Line) : Entry :=
  ⟨line.block, line.name, line.op, line.operands.map Piece.chars⟩

/-- What a draft says, wherever it stands in the text. -/
structure Outline where
  blocks : List (List Char) := []
  entries : List Entry := []
  edges : List (Nat × List Char) := []

def outline (d : Draft) : Outline where
  blocks := d.blocks.toList
  entries := d.lines.toList.map Line.entry
  edges := d.edges.toList.map fun e => (e.1, e.2.chars)

variable {d : Draft} {s s₁ s' : Scope} {o o₁ o' : Outline} {name : List Char} {b : Nat}

theorem findNode?_eq_none : d.findNode? name = none ↔ name ∉ d.outline.entries.map Entry.name := by
  unfold findNode?
  rw [Array.findIdx?_eq_none_iff]
  simp only [outline, List.map_map, List.mem_map, not_exists, not_and, Array.mem_toList_iff, Line.entry,
    Function.comp_apply, beq_eq_false_iff_ne]

/-- A name that only one member has is found there. -/
theorem findIdx?_of_nodup {α : Type} {xs : Array α} {f : α → List Char} {i : Nat}
    (hnodup : (xs.toList.map f).Nodup) (hi : (xs.toList.map f)[i]? = some name) :
    xs.findIdx? (f · == name) = some i := by
  obtain ⟨hlt, hname⟩ := List.getElem?_eq_some_iff.mp hi
  have hsize : i < xs.size := by simpa using hlt
  refine Array.findIdx?_eq_some_iff_getElem.mpr ⟨hsize, by simpa using hname, fun j hj heq => ?_⟩
  have hj' : j < (xs.toList.map f).length := Nat.lt_trans hj hlt
  have hsame : (xs.toList.map f)[j] = (xs.toList.map f)[i] := by
    rw [hname]
    simpa using heq
  exact absurd (hnodup.getElem_inj_iff.mp hsame) (Nat.ne_of_lt hj)

theorem findNode?_eq_some {id : Nat} (hnodup : (d.outline.entries.map Entry.name).Nodup)
    (hid : (d.outline.entries.map Entry.name)[id]? = some name) : d.findNode? name = some id := by
  simp only [outline, List.map_map] at hnodup hid
  exact findIdx?_of_nodup hnodup hid

theorem findBlock?_eq_some (hnodup : d.outline.blocks.Nodup) (hb : d.outline.blocks[b]? = some name) :
    d.findBlock? name = some b := by
  rw [← List.map_id d.outline.blocks] at hnodup hb
  exact findIdx?_of_nodup hnodup hb

/-! ### Lines -/

/-- Lines lead the reader from one outline to another. -/
def Reads (lines : List (List Char)) (s : Scope) (o : Outline) (s' : Scope) (o' : Outline) : Prop :=
  ∀ (ps : List Piece) (d : Draft), ps.map Piece.chars = lines → d.outline = o →
    ∃ d', ps.foldlM readLine (s, d) = .ok (s', d') ∧ d'.outline = o'

namespace Reads

theorem nil : Reads [] s o s o := by
  intro ps d hps hd
  rw [List.map_eq_nil_iff.mp hps]
  exact ⟨d, rfl, hd⟩

theorem append {lines lines' : List (List Char)} (h : Reads lines s o s₁ o₁)
    (h' : Reads lines' s₁ o₁ s' o') : Reads (lines ++ lines') s o s' o' := by
  intro ps d hps hd
  obtain ⟨qs, rs, rfl, hqs, hrs⟩ := List.map_eq_append_iff.mp hps
  obtain ⟨d₁, hread, hd₁⟩ := h qs d hqs hd
  obtain ⟨d', hread', hd'⟩ := h' rs d₁ hrs hd₁
  refine ⟨d', ?_, hd'⟩
  rw [List.foldlM_append, hread]
  exact hread'

theorem of_line {line : List Char} (h : ∀ (p : Piece) (d : Draft), p.chars = line → d.outline = o →
    ∃ d', readLine (s, d) p = .ok (s', d') ∧ d'.outline = o') : Reads [line] s o s' o' := by
  intro ps d hps hd
  obtain ⟨p, rest, rfl, hp, hrest⟩ := List.map_eq_cons_iff.mp hps
  rw [List.map_eq_nil_iff.mp hrest]
  obtain ⟨d', hread, hd'⟩ := h p d hp hd
  refine ⟨d', ?_, hd'⟩
  rw [List.foldlM_cons, hread]
  rfl

end Reads

theorem beforeOpening?_eq {p : Piece} (hname : Trimmed name) (hp : p.chars = name ++ [' ', '\x7b']) :
    ∃ q, beforeOpening? p = some q ∧ q.chars = name := by
  have hreverse : p.chars.reverse = '\x7b' :: (name ++ [' ']).reverse := by simp [hp]
  refine ⟨Piece.trim ⟨p.start, (name ++ [' ']).reverse.reverse⟩, ?_, ?_⟩
  · rw [beforeOpening?, Piece.beforeLast?, hreverse]
    rfl
  · rw [Piece.chars_trim, List.reverse_reverse]
    exact hname.strip_surrounded (a := []) (b := [' ']) rfl (by decide)

theorem isClosing_eq_false {p : Piece} (h : 2 ≤ p.chars.length) : isClosing p = false := by
  refine beq_eq_false_iff_ne.mpr fun heq => ?_
  rw [heq] at h
  exact absurd h (by decide)

theorem reads_keyword : Reads ["pipeline \x7b".toList] .start o .pipeline o := by
  refine .of_line fun p d hp hd => ⟨d, ?_, hd⟩
  have hkeyword : Trimmed keyword := .of_all (by decide)
  obtain ⟨q, hq, hchars⟩ := beforeOpening?_eq hkeyword hp
  rw [readLine, hq, Option.map_some, hchars, if_pos (by simp)]

theorem reads_opening (hname : IsBlockName name) (hnew : name ∉ o.blocks) :
    Reads [name ++ [' ', '\x7b']] .pipeline o (.block o.blocks.length)
      { o with blocks := o.blocks ++ [name] } := by
  refine .of_line fun p d hp hd => ⟨{ d with blocks := d.blocks.push name }, ?_, ?_⟩
  · obtain ⟨q, hq, hchars⟩ := beforeOpening?_eq hname.trimmed hp
    have hcut : p.cut? ['-', '>'] = none := by
      rw [Piece.cut?, hp, cutChars_across hname.no_arrow (by decide) (by decide)]
      rfl
    have hne : q.isEmpty = false := by
      rw [Piece.isEmpty, hchars]
      exact List.isEmpty_eq_false_iff.mpr hname.ne_nil
    have hfresh : d.findBlock? q.chars = none := by
      rw [hchars, findBlock?_eq_none, ← Array.mem_toList_iff]
      rw [← hd] at hnew
      exact hnew
    have hsize : o.blocks.length = d.blocks.size := by
      rw [← hd]
      exact Array.length_toList
    rw [readLine, readOuter, isClosing_eq_false (by simp [hp]), if_neg (by simp), hcut]
    dsimp only
    rw [hq]
    dsimp only
    rw [hne, hfresh, if_neg (by simp), hsize, hchars]
  · rw [← hd]
    simp [outline]

theorem reads_closing : Reads [['\x7d']] (.block b) o .pipeline o :=
  .of_line fun p d hp hd => ⟨d, by rw [readLine, isClosing, hp, if_pos (by simp)], hd⟩

theorem reads_end : Reads [['\x7d']] .pipeline o .done o :=
  .of_line fun p d hp hd => ⟨d, by rw [readLine, readOuter, isClosing, hp, if_pos (by simp)], hd⟩

theorem reads_edges (hname : IsBlockName name) (hnodup : o.blocks.Nodup) (hb : o.blocks[b]? = some name)
    {ts : List (List Char)} (hts : ∀ t ∈ ts, IsToken t) (hne : ts ≠ []) :
    Reads [name ++ ([' ', '-', '>', ' '] ++ listed ts)] .pipeline o .pipeline
      { o with edges := o.edges ++ ts.map (b, ·) } := by
  refine .of_line fun p d hp hd => ?_
  have hchars : Piece.cutChars ['-', '>'] p.chars = some (name ++ [' '], ' ' :: listed ts) := by
    rw [hp]
    exact cutChars_across hname.no_arrow (by decide) (by decide)
  obtain ⟨source, targets, hcut, hsource, htargets⟩ := Piece.cut?_eq_some hchars
  have hstrip : source.trim.chars = name := by
    rw [Piece.chars_trim, hsource]
    exact hname.trimmed.strip_surrounded (a := []) (b := [' ']) rfl (by decide)
  rw [← hd] at hnodup hb
  have hfound := findBlock?_eq_some hnodup hb
  have hlong : 2 ≤ p.chars.length := by
    rw [hp]
    simp only [List.length_append, List.length_cons]
    omega
  rw [readLine, readOuter, isClosing_eq_false hlong, if_neg (by simp), hcut]
  dsimp only
  rw [hstrip, hfound]
  refine ⟨_, rfl, ?_⟩
  have hparts : ((targets.split ',').map fun t => (b, t.trim.chars)) = ts.map (b, ·) := by
    have hlisted : targets.chars = [' '] ++ listed ts := htargets
    rw [← Piece.parts_listed hts hne hlisted (by decide) (by decide), List.map_map, List.map_map]
    rfl
  rw [← hd]
  simp only [outline, Array.toList_append, List.map_append, List.map_map]
  exact congrArg (Outline.mk _ _ ∘ (_ ++ ·)) hparts

/-- What stands behind the equals sign of a node: the operator and its operands. -/
def parts (rest : Piece) : Piece × Piece :=
  match rest.cutBlank? with
  | some (opcode, operands) => (opcode, operands.trim)
  | none => (rest, rest.tail)

theorem readNode_eq {line left right : Piece} {op : Operator}
    (hcut : line.cut? ['='] = some (left, right))
    (hleft : left.trim.chars = name) (hname : name ≠ []) (hnew : d.findNode? name = none)
    (hop : Operator.ofName? (parts right.trim).1.text = some op) :
    d.readNode b line = .ok { d with
      lines := d.lines.push ⟨b, name, op, if (parts right.trim).2.isEmpty then [] else
        ((parts right.trim).2.split ',').map Piece.trim⟩ } := by
  have hnot : ¬(left.trim.isEmpty || (d.findNode? left.trim.chars).isSome) = true := by
    rw [Piece.isEmpty, hleft, hnew]
    simpa using hname
  unfold parts at hop ⊢
  unfold readNode
  rw [hcut]
  dsimp only
  rw [if_neg hnot]
  cases hblank : right.trim.cutBlank? with
  | some q =>
      simp only [hblank] at hop ⊢
      rw [hop, hleft]
  | none =>
      simp only [hblank] at hop ⊢
      rw [hop, hleft]

theorem parts_operation {op : Operator} {ts : List (List Char)} (hop : op.Readable)
    (hts : ∀ t ∈ ts, IsToken t) {rest : Piece}
    (hrest : rest.chars = op.name.toList ++ Graph.operandText ts) :
    (parts rest).1.text = op.name ∧
    (if (parts rest).2.isEmpty then [] else ((parts rest).2.split ',').map Piece.trim).map Piece.chars
      = ts := by
  by_cases hnil : ts = []
  · have hword : rest.cutBlank? = none := by
      rw [Piece.cutBlank?_eq_none, hrest, Graph.operandText, if_pos hnil, List.append_nil]
      exact hop.word
    rw [parts, hword]
    refine ⟨?_, hnil ▸ rfl⟩
    rw [Piece.text, hrest, Graph.operandText, if_pos hnil, List.append_nil, String.ofList_toList]
  · rw [Graph.operandText, if_neg hnil] at hrest
    obtain ⟨opcode, operands, hcut, hopcode, hoperands⟩ :=
      Piece.cutBlank?_append hrest hop.word (by decide)
    obtain ⟨hne, htrimmed, -⟩ := listed_spec hts hnil
    have hchars : operands.trim.chars = [] ++ listed ts := by
      rw [Piece.chars_trim, hoperands, htrimmed.strip_eq, List.nil_append]
    rw [parts, hcut]
    refine ⟨by rw [Piece.text, hopcode, String.ofList_toList], ?_⟩
    · rw [if_neg (by simpa [Piece.isEmpty, hchars] using hne)]
      exact Piece.parts_listed hts hnil hchars rfl (by decide)

theorem reads_node {id : Nat} {op : Operator} {ts : List (List Char)} (hop : op.Readable)
    (hts : ∀ t ∈ ts, IsToken t) (hnew : nodeName id ∉ o.entries.map Entry.name) :
    Reads [nodeName id ++ ([' ', '=', ' '] ++ (op.name.toList ++ Graph.operandText ts))] (.block b) o
      (.block b) { o with entries := o.entries ++ [⟨b, nodeName id, op, ts⟩] } := by
  refine .of_line fun p d hp hd => ?_
  have hname := isToken_nodeName id
  have hequals : '=' ∉ nodeName id ++ [' '] := by
    intro hmem
    rcases List.mem_append.mp hmem with hmem | hmem
    · rcases List.mem_cons.mp hmem with heq | hmem
      · exact absurd heq (by decide)
      · exact absurd (Decimal.isDigit_of_mem_toDigits hmem) (by decide)
    · exact absurd hmem (by decide)
  have hchars : Piece.cutChars ['='] p.chars
      = some (nodeName id ++ [' '], ' ' :: (op.name.toList ++ Graph.operandText ts)) := by
    rw [hp, ← cutChars_append hequals]
    simp
  obtain ⟨left, right, hcut, hleft, hright⟩ := Piece.cut?_eq_some hchars
  have hstripLeft : left.trim.chars = nodeName id := by
    rw [Piece.chars_trim, hleft]
    exact hname.trimmed.strip_surrounded (a := []) (b := [' ']) rfl (by decide)
  have hstripRight : right.trim.chars = op.name.toList ++ Graph.operandText ts := by
    have htrimmed := (Graph.operation_spec hop hts).2.1
    rw [Piece.chars_trim, hright]
    simpa using htrimmed.strip_surrounded (a := [' ']) (b := []) (by decide) rfl
  have hlong : 2 ≤ p.chars.length := by
    rw [hp]
    simp only [List.length_append, List.length_cons]
    omega
  have hfresh : d.findNode? (nodeName id) = none := by
    rw [findNode?_eq_none, hd]
    exact hnew
  obtain ⟨hopcode, hoperands⟩ := parts_operation hop hts hstripRight
  have hread := readNode_eq (b := b) hcut hstripLeft hname.ne_nil hfresh (hopcode ▸ hop.found)
  rw [readLine, isClosing_eq_false hlong, if_neg (by simp), hread]
  refine ⟨_, rfl, ?_⟩
  rw [← hd]
  simp only [outline, Array.toList_push, List.map_append, List.map_singleton, Line.entry]
  rw [hoperands]

end Draft

namespace Graph

open Draft

variable {g : Graph} {b k : Nat} {o : Outline}

def entry (g : Graph) (id : Nat) : Entry :=
  ⟨(g.placedAt id).block, nodeName id, (g.placedAt id).node.op, g.tokens (g.placedAt id).node⟩

def edgesFrom (g : Graph) (b : Nat) : List (Nat × List Char) :=
  (g.blockAt b).successors.map fun c => (b, g.nameOf c)

/-- What is read of a graph with its first blocks. -/
def outlineTo (g : Graph) (k : Nat) : Outline where
  blocks := (List.range k).map g.nameOf
  entries := ((List.range k).flatMap g.members).map g.entry
  edges := (List.range k).flatMap g.edgesFrom

theorem outlineTo_succ (g : Graph) (k : Nat) : g.outlineTo (k + 1) =
    { blocks := (g.outlineTo k).blocks ++ [g.nameOf k]
      entries := (g.outlineTo k).entries ++ (g.members k).map g.entry
      edges := (g.outlineTo k).edges ++ g.edgesFrom k } := by
  simp [outlineTo, List.range_succ]

section

variable (h : g.Legible)

include h

theorem Legible.nameOf_inj {b c : Nat} (hb : b < g.blocks.size) (hc : c < g.blocks.size)
    (heq : g.nameOf b = g.nameOf c) : b = c := by
  rw [nameOf, nameOf, blockAt_eq (Array.getElem?_eq_getElem hb),
    blockAt_eq (Array.getElem?_eq_getElem hc),
    String.toList_inj] at heq
  have hb' : b < (g.blocks.toList.map Block.name).length := by simpa using hb
  have hc' : c < (g.blocks.toList.map Block.name).length := by simpa using hc
  have hsame : (g.blocks.toList.map Block.name)[b] = (g.blocks.toList.map Block.name)[c] := by
    simpa using heq
  exact h.distinct.getElem_inj_iff.mp hsame

theorem Legible.nodup_blocks (hk : k ≤ g.blocks.size) : (g.outlineTo k).blocks.Nodup := by
  refine List.Nodup.map_on (fun b hb c hc heq => ?_) List.nodup_range
  rw [List.mem_range] at hb hc
  exact h.nameOf_inj (by omega) (by omega) heq

theorem Legible.reads_nodes {ids : List Nat} (hids : ∀ id ∈ ids, g.blockOf? id = some b)
    (hnodup : ids.Nodup) (hnew : ∀ id ∈ ids, nodeName id ∉ o.entries.map Entry.name) :
    Reads (ids.map g.nodeLine) (.block b) o (.block b)
      { o with entries := o.entries ++ ids.map g.entry } := by
  induction ids generalizing o with
  | nil =>
      rw [List.map_nil, List.map_nil, List.append_nil]
      exact .nil
  | cons id ids ih =>
      obtain ⟨hid, hids⟩ := List.forall_mem_cons.mp hids
      obtain ⟨hfresh, hnew⟩ := List.forall_mem_cons.mp hnew
      obtain ⟨hnot, hnodup⟩ := List.nodup_cons.mp hnodup
      obtain ⟨n, hn⟩ := blockOf?_eq_some.mp hid
      have hmem := Array.mem_of_getElem? hn
      have hfirst := reads_node (b := b) (h.readable _ hmem) (h.isToken hmem) hfresh
      have hline : g.nodeLine id = nodeName id ++ ([' ', '=', ' '] ++
          (n.op.name.toList ++ operandText (g.tokens n))) := by rw [nodeLine, placedAt_eq hn]
      have hentry : g.entry id = ⟨b, nodeName id, n.op, g.tokens n⟩ := by rw [entry, placedAt_eq hn]
      rw [← hline, ← hentry] at hfirst
      have hrest := ih (o := { o with entries := o.entries ++ [g.entry id] }) hids hnodup ?_
      · rw [List.append_assoc] at hrest
        exact hfirst.append hrest
      · intro id' hid'
        rw [List.map_append, List.mem_append, not_or, List.map_singleton, List.mem_singleton]
        refine ⟨hnew id' hid', fun heq => hnot ?_⟩
        rw [nodeName_inj.mp (heq : nodeName id' = nodeName id)] at hid'
        exact hid'

theorem Legible.reads_edgeLines (hb : b < g.blocks.size) (ho : o.blocks = (g.outlineTo (b + 1)).blocks) :
    Reads (g.edgeLines b) .pipeline o .pipeline { o with edges := o.edges ++ g.edgesFrom b } := by
  have hedges : g.edgesFrom b = ((g.blockAt b).successors.map g.nameOf).map (b, ·) := by
    rw [List.map_map]
    rfl
  have hnodup : o.blocks.Nodup := by
    rw [ho]
    exact h.nodup_blocks hb
  have hget : o.blocks[b]? = some (g.nameOf b) := by
    rw [ho, outlineTo, List.getElem?_map, List.getElem?_range (Nat.lt_succ_self b)]
    rfl
  rw [hedges]
  unfold edgeLines
  dsimp only
  split
  · rename_i hnil
    rw [hnil, List.map_nil, List.append_nil]
    exact .nil
  · rename_i hne
    exact reads_edges (h.isBlockName hb) hnodup hget (h.isToken_successors hb) hne

theorem Legible.reads_block (hb : b < g.blocks.size) :
    Reads (g.blockLines b) .pipeline (g.outlineTo b) .pipeline (g.outlineTo (b + 1)) := by
  have hlength : (g.outlineTo b).blocks.length = b := by simp [outlineTo]
  have hfresh : g.nameOf b ∉ (g.outlineTo b).blocks := by
    intro hmem
    obtain ⟨c, hc, heq⟩ := List.mem_map.mp hmem
    rw [List.mem_range] at hc
    exact absurd (h.nameOf_inj (by omega) hb heq) (by omega)
  have hopening := reads_opening (h.isBlockName hb) hfresh
  rw [hlength] at hopening
  have hnew : ∀ id ∈ g.members b, nodeName id ∉ (g.outlineTo b).entries.map Entry.name := by
    intro id hid hmem
    obtain ⟨e, he, heq⟩ := List.mem_map.mp hmem
    obtain ⟨j, hj, rfl⟩ := List.mem_map.mp he
    obtain ⟨c, hc, hj⟩ := List.mem_flatMap.mp hj
    rw [nodeName_inj.mp (heq : nodeName j = nodeName id)] at hj
    have hblock : some c = some b := (mem_members.mp hj).symm.trans (mem_members.mp hid)
    rw [Option.some.inj hblock] at hc
    exact absurd (List.mem_range.mp hc) (Nat.lt_irrefl b)
  have hnodes := h.reads_nodes
    (o := { g.outlineTo b with blocks := (g.outlineTo b).blocks ++ [g.nameOf b] })
    (fun _ hid => mem_members.mp hid) (members_nodup g b) hnew
  have hedges := h.reads_edgeLines (o := { g.outlineTo b with
    blocks := (g.outlineTo b).blocks ++ [g.nameOf b]
    entries := (g.outlineTo b).entries ++ (g.members b).map g.entry }) hb (by rw [outlineTo_succ])
  rw [outlineTo_succ]
  exact hopening.append (hnodes.append (reads_closing.append hedges))

theorem Legible.reads_blocks (hk : k ≤ g.blocks.size) :
    Reads ((List.range k).flatMap g.blockLines) .pipeline {} .pipeline (g.outlineTo k) := by
  induction k with
  | zero => exact .nil
  | succ k ih =>
      rw [List.range_succ, List.flatMap_append, List.flatMap_singleton]
      exact (ih (by omega)).append (h.reads_block hk)

/-- The text of a graph is read as what the graph says. -/
theorem Legible.read_render {s : String} (hs : g.render? = some s) :
    ∃ d, Draft.read (Piece.ofString s) = .ok d ∧ d.outline = g.outlineTo g.blocks.size := by
  obtain ⟨t, ht, hlined⟩ := h.render?_eq
  obtain rfl : t = s := Option.some.inj (ht.symm.trans hs)
  have hlines := hlined.lines_eq g.textLines_ne_nil (p := Piece.ofString t) rfl
  have hreads : Reads g.textLines .start {} .done (g.outlineTo g.blocks.size) :=
    reads_keyword.append ((h.reads_blocks (Nat.le_refl _)).append reads_end)
  obtain ⟨d, hread, hd⟩ := hreads _ {} hlines rfl
  refine ⟨d, ?_, hd⟩
  rw [Draft.read, hread]
  rfl

end

/-! ### Names -/

/-- The node that has a name. -/
def nodeNamed? (g : Graph) (name : List Char) : Option Nat :=
  (List.range g.nodes.size).find? (nodeName · == name)

theorem lt_of_nodeNamed? {name : List Char} {id : Nat} (h : g.nodeNamed? name = some id) :
    id < g.nodes.size ∧ nodeName id = name := by
  have hname := List.find?_some h
  exact ⟨List.mem_range.mp (List.mem_of_find?_eq_some h), beq_iff_eq.mp hname⟩

theorem nodeNamed?_eq_none {name : List Char} :
    g.nodeNamed? name = none ↔ name ∉ (List.range g.nodes.size).map nodeName := by
  simp [nodeNamed?, List.find?_eq_none]

/-- What a control is read as: a block that is named like a node is taken for the node. -/
def recontrol (g : Graph) : Control → Control
  | .node id => .node id
  | .block b =>
    match g.nodeNamed? (g.nameOf b) with
    | some id => .node id
    | none => .block b

/-- Where no block is named like a node controls are read as they were. -/
theorem recontrol_eq (hnames : ∀ block ∈ g.blocks, isNodeName block.name.toList = false) {c : Control}
    (hc : g.Nameable c) : g.recontrol c = c := by
  cases c with
  | node id => rfl
  | block b =>
      obtain ⟨block, hb, -⟩ := hc
      have hother : isNodeName (g.nameOf b) = false := by
        rw [nameOf, blockAt_eq hb]
        exact hnames block (Array.mem_of_getElem? hb)
      have hnone : g.nodeNamed? (g.nameOf b) = none := by
        rw [nodeNamed?_eq_none]
        intro hmem
        obtain ⟨id, -, heq⟩ := List.mem_map.mp hmem
        rw [← heq, isNodeName_nodeName] at hother
        exact Bool.false_ne_true hother.symm
      rw [recontrol, hnone]

section

variable {d : Draft} {id : Nat} (h : g.Legible) (hd : d.outline = g.outlineTo g.blocks.size)

include h hd

theorem Legible.names_eq :
    d.outline.entries.map Entry.name = (List.range g.nodes.size).map nodeName := by
  have hlayout : (List.range g.blocks.size).flatMap g.members = List.range g.nodes.size := h.layout_eq
  rw [hd, outlineTo, hlayout, List.map_map]
  rfl

theorem Legible.findNode?_nodeName (hid : id < g.nodes.size) : d.findNode? (nodeName id) = some id := by
  refine findNode?_eq_some ?_ ?_
  · rw [h.names_eq hd]
    exact List.Nodup.map (fun _ _ => nodeName_inj.mp) List.nodup_range
  · rw [h.names_eq hd, List.getElem?_map, List.getElem?_range hid]
    rfl

theorem Legible.findNode?_other {cs : List Char} (hcs : isNodeName cs = false) :
    d.findNode? cs = none := by
  rw [findNode?_eq_none, h.names_eq hd]
  intro hmem
  obtain ⟨id, -, rfl⟩ := List.mem_map.mp hmem
  exact absurd (isNodeName_nodeName id) (by simp [hcs])

theorem Legible.findBlock?_nameOf (hb : b < g.blocks.size) : d.findBlock? (g.nameOf b) = some b := by
  refine findBlock?_eq_some ?_ ?_
  · rw [hd]
    exact h.nodup_blocks (Nat.le_refl _)
  · rw [hd, outlineTo, List.getElem?_map, List.getElem?_range hb]
    rfl

/-! ### Operands -/

variable {n : Node} {p : Piece}

theorem Legible.addOperand_input (hid : id < g.nodes.size) (hp : p.chars = nodeName id) :
    d.addOperand n p = .ok { n with inputs := n.inputs ++ [id] } := by
  have hmark : p.afterFirst? '^' = none := by
    rw [Piece.afterFirst?, hp]
    rfl
  rw [addOperand, hmark, hp, h.findNode?_nodeName hd hid]

theorem Legible.addOperand_literal (l : Literal) (hp : p.chars = l.render.toList) :
    d.addOperand n p = .ok { n with literals := n.literals ++ [l.reread] } := by
  have hmark : p.afterFirst? '^' = none := by
    have hplain := l.spelling_render.isPlain
    rw [Piece.afterFirst?, hp]
    split
    · rfl
    · rename_i c rest hchars
      refine if_neg ?_
      rw [hchars] at hplain
      exact (Decimal.isPlain_spec (hplain c List.mem_cons_self)).2.2.2
  rw [addOperand, hmark, hp, h.findNode?_other hd l.isNodeName_render, l.read?_render]

theorem Legible.addOperand_control {c : Control} (hc : g.Nameable c) (hp : p.chars = g.controlText c) :
    d.addOperand n p = .ok { n with control := n.control ++ [g.recontrol c] } := by
  have hmark {cs : List Char} (hcs : p.chars = '^' :: cs) :
      ∃ q, p.afterFirst? '^' = some q ∧ q.chars = cs := by
    rw [Piece.afterFirst?, hcs]
    exact ⟨_, rfl, rfl⟩
  cases c with
  | node id =>
      obtain ⟨q, hq, hchars⟩ := hmark hp
      rw [addOperand, hq]
      dsimp only
      rw [Draft.control, hchars, h.findNode?_nodeName hd hc]
      rfl
  | block b =>
      obtain ⟨q, hq, hchars⟩ := hmark hp
      obtain ⟨block, hb, -⟩ := hc
      have hlt := (Array.getElem?_eq_some_iff.mp hb).1
      rw [addOperand, hq]
      dsimp only
      rw [Draft.control, hchars, recontrol]
      cases hnamed : g.nodeNamed? (g.nameOf b) with
      | some id =>
          obtain ⟨hid, hname⟩ := lt_of_nodeNamed? hnamed
          rw [← hname, h.findNode?_nodeName hd hid]
          rfl
      | none =>
          have hother : d.findNode? (g.nameOf b) = none := by
            rw [findNode?_eq_none, h.names_eq hd]
            exact nodeNamed?_eq_none.mp hnamed
          rw [hother]
          dsimp only
          rw [h.findBlock?_nameOf hd hlt]
          rfl

end

/-- Operands of one kind are added one after another. -/
theorem foldlM_eq_of_texts {α : Type} {f : Node → Piece → Except Complaint Node} {text : α → List Char}
    (node : List α → Node) {ys : List α}
    (hf : ∀ done p, ∀ y ∈ ys, Piece.chars p = text y → f (node done) p = .ok (node (done ++ [y])))
    {ps : List Piece} (hps : ps.map Piece.chars = ys.map text) (done : List α) :
    ps.foldlM f (node done) = .ok (node (done ++ ys)) := by
  induction ys generalizing ps done with
  | nil =>
      rw [List.map_eq_nil_iff.mp hps, List.append_nil]
      rfl
  | cons y ys ih =>
      obtain ⟨p, rest, rfl, hp, hrest⟩ := List.map_eq_cons_iff.mp hps
      have hfirst := hf done p y List.mem_cons_self hp
      have hlater := ih (fun done p z hz => hf done p z (List.mem_cons_of_mem y hz)) hrest (done ++ [y])
      rw [List.append_assoc] at hlater
      rw [List.foldlM_cons, hfirst]
      exact hlater

/-- What is computed from each member of a list, if it depends on a part of it only. -/
theorem mapM_eq_of_views {α β γ δ ε : Type} {f : α → Except ε γ} {view : α → δ} {view' : β → δ}
    {result : β → γ} {xs : List α} {ys : List β} (hviews : xs.map view = ys.map view')
    (hf : ∀ x, ∀ y ∈ ys, view x = view' y → f x = .ok (result y)) :
    xs.mapM f = .ok (ys.map result) := by
  induction ys generalizing xs with
  | nil =>
      rw [List.map_eq_nil_iff.mp hviews]
      rfl
  | cons y ys ih =>
      obtain ⟨x, rest, rfl, hx, hrest⟩ := List.map_eq_cons_iff.mp hviews
      rw [List.mapM_cons, hf x y List.mem_cons_self hx,
        ih hrest fun x z hz => hf x z (List.mem_cons_of_mem y hz)]
      rfl

/-- The edges from a block are those that start at it. -/
theorem filter_edges (f : Nat → List Nat) (b n : Nat) :
    (((List.range n).flatMap fun c => (f c).map (c, ·)).filter (·.1 == b)).map Prod.snd
      = if b < n then f b else [] := by
  induction n with
  | zero => rfl
  | succ n ih =>
      rw [List.range_succ, List.flatMap_append, List.filter_append, List.map_append, ih,
        List.flatMap_singleton, List.filter_map, List.map_map]
      by_cases hn : n = b
      · subst hn
        simp [Function.comp_def]
      · have hnot : ((f n).filter ((·.1 == b) ∘ (n, ·))) = [] := by simp [hn]
        rw [hnot, List.map_nil, List.append_nil]
        by_cases hb : b < n
        · rw [if_pos hb, if_pos (by omega)]
        · rw [if_neg hb, if_neg (by omega)]

/-- A node with its literals read again. -/
def reread (p : Placed) : Placed :=
  { p with node := { p.node with literals := p.node.literals.map Literal.reread } }

/-- A node with its controls and literals read again. -/
def readAgain (g : Graph) (p : Placed) : Placed :=
  reread { p with node := { p.node with control := p.node.control.map g.recontrol } }

/-- The edges of a graph, block by block. -/
def edgePairs (g : Graph) : List (Nat × Nat) :=
  (List.range g.blocks.size).flatMap fun b => (g.blockAt b).successors.map (b, ·)

section

variable {d : Draft} {id : Nat} (h : g.Legible) (hd : d.outline = g.outlineTo g.blocks.size)

include h hd

theorem Legible.node_eq {p : Placed} (hp : g.nodes[id]? = some p) {line : Line}
    (hline : line.entry = g.entry id) : d.node line = .ok (g.readAgain p) := by
  have hmem := Array.mem_of_getElem? hp
  rw [entry, placedAt_eq hp] at hline
  have hblock : line.block = p.block := congrArg Entry.block hline
  have hop : line.op = p.node.op := congrArg Entry.op hline
  have htokens : line.operands.map Piece.chars = g.tokens p.node := congrArg Entry.tokens hline
  obtain ⟨qs, inputs, hoperands, hqs, hinputs⟩ := List.map_eq_append_iff.mp htokens
  obtain ⟨controls, literals, rfl, hcontrols, hliterals⟩ := List.map_eq_append_iff.mp hqs
  -- controls come first, then literals, then inputs
  let withControl (cs : List Control) : Node := { op := p.node.op, control := cs.map g.recontrol }
  let withLiterals (ls : List Literal) : Node :=
    { withControl p.node.control with literals := ls.map Literal.reread }
  let withInputs (vs : List Nat) : Node := { withLiterals p.node.literals with inputs := vs }
  have hcontrol : controls.foldlM d.addOperand (withControl []) = .ok (withLiterals []) := by
    refine foldlM_eq_of_texts withControl (fun done q c hc hq => ?_) hcontrols []
    simp only [withControl, List.map_append]
    exact h.addOperand_control hd (h.control p hmem c hc) hq
  have hliteral : literals.foldlM d.addOperand (withLiterals []) = .ok (withInputs []) := by
    refine foldlM_eq_of_texts withLiterals (fun done q l _ hq => ?_) hliterals []
    simp only [withLiterals, List.map_append]
    exact h.addOperand_literal hd l hq
  have hinput : inputs.foldlM d.addOperand (withInputs []) = .ok (g.readAgain p).node :=
    foldlM_eq_of_texts withInputs
      (fun _ _ v hv hq => h.addOperand_input hd (h.inputs p hmem v hv) hq) hinputs []
  have hall : line.operands.foldlM d.addOperand (withControl []) = .ok (g.readAgain p).node := by
    rw [hoperands, List.foldlM_append, List.foldlM_append, hcontrol]
    change (literals.foldlM d.addOperand _ >>= fun n => inputs.foldlM d.addOperand n) = _
    rw [hliteral]
    exact hinput
  rw [Draft.node, hop]
  change (line.operands.foldlM d.addOperand (withControl []) >>= _) = _
  rw [hall]
  change Except.ok (⟨line.block, (g.readAgain p).node⟩ : Placed) = _
  rw [hblock]
  rfl

theorem Legible.nodes_eq : d.lines.toList.mapM d.node = .ok (g.nodes.toList.map g.readAgain) := by
  have hviews : d.lines.toList.map Line.entry = (List.range g.nodes.size).map g.entry := by
    have hentries : d.outline.entries = (g.outlineTo g.blocks.size).entries := congrArg _ hd
    have hlayout : (List.range g.blocks.size).flatMap g.members = List.range g.nodes.size := h.layout_eq
    rwa [outlineTo, hlayout] at hentries
  have hall : g.nodes.toList.map g.readAgain
      = (List.range g.nodes.size).map fun id => g.readAgain (g.placedAt id) := by
    refine List.ext_getElem (by simp) fun id hid _ => ?_
    have hlt : id < g.nodes.size := by simpa using hid
    simp [placedAt_eq (Array.getElem?_eq_getElem hlt)]
  rw [hall]
  refine mapM_eq_of_views hviews fun line id hid hline => ?_
  have hp := Array.getElem?_eq_getElem (List.mem_range.mp hid)
  rw [placedAt_eq hp]
  exact h.node_eq hd hp hline

theorem Legible.edges_eq : d.edges.toList.mapM d.edge = .ok g.edgePairs := by
  have hviews : (d.edges.toList.map fun e => (e.1, e.2.chars))
      = g.edgePairs.map fun e => (e.1, g.nameOf e.2) := by
    have hedges : d.outline.edges = (g.outlineTo g.blocks.size).edges := congrArg _ hd
    rw [edgePairs, List.map_flatMap]
    simp only [List.map_map]
    exact hedges
  rw [← List.map_id g.edgePairs]
  refine mapM_eq_of_views hviews fun e f hf heq => ?_
  obtain ⟨source, target⟩ := e
  obtain ⟨b, hb, hmem⟩ := List.mem_flatMap.mp hf
  obtain ⟨c, hc, rfl⟩ := List.mem_map.mp hmem
  rw [List.mem_range] at hb
  rw [blockAt_eq (Array.getElem?_eq_getElem hb)] at hc
  obtain ⟨block, hblock, -⟩ := h.successors _ (Array.getElem_mem hb) c hc
  obtain ⟨rfl, htarget⟩ := Prod.mk.injEq .. ▸ heq
  rw [edge, htarget, h.findBlock?_nameOf hd (Array.getElem?_eq_some_iff.mp hblock).1]
  rfl

omit h in
theorem blocksWith_edgePairs : d.blocksWith g.edgePairs = g.blocks := by
  have hblocks : d.blocks.toList = (List.range g.blocks.size).map g.nameOf := congrArg Outline.blocks hd
  refine Array.ext_getElem? fun b => ?_
  rw [getElem?_blocksWith, edgePairs, filter_edges, ← Array.getElem?_toList, hblocks, List.getElem?_map]
  by_cases hb : b < g.blocks.size
  · have hblock := Array.getElem?_eq_getElem hb
    rw [List.getElem?_range hb, if_pos hb, hblock, Option.map_some, Option.map_some, nameOf,
      blockAt_eq hblock, String.ofList_toList]
  · rw [List.getElem?_eq_none (by simpa using hb), Array.getElem?_eq_none (by omega)]
    rfl

/-- The graph that is read from what a graph says has the same blocks, and its nodes read again. -/
theorem Legible.toGraph_again : ∃ g', d.toGraph = .ok g' ∧ g'.blocks = g.blocks ∧
    g'.nodes = g.nodes.map g.readAgain := by
  refine ⟨.ofParts g.blocks (g.nodes.toList.map g.readAgain).toArray, ?_, rfl, ?_⟩
  · rw [toGraph, h.nodes_eq hd]
    change (d.edges.toList.mapM d.edge >>= _) = _
    rw [h.edges_eq hd]
    change Except.ok (Graph.ofParts (d.blocksWith g.edgePairs) _) = _
    rw [blocksWith_edgePairs hd]
  · have hkept : ∀ p ∈ (g.nodes.toList.map g.readAgain).toArray, p.block < g.blocks.size := by
      intro p hp
      obtain ⟨q, hq, rfl⟩ := List.mem_map.mp (List.mem_toArray.mp hp)
      exact g.block_lt q (Array.mem_toList_iff.mp hq)
    rw [nodes_ofParts hkept, ← Array.toList_map, Array.toArray_toList]

/-- The graph that is read from what a graph says is the same, but for the kinds of its literals. -/
theorem Legible.toGraph_eq (hnames : ∀ block ∈ g.blocks, isNodeName block.name.toList = false) :
    ∃ g', d.toGraph = .ok g' ∧ g'.blocks = g.blocks ∧ g'.nodes = g.nodes.map reread := by
  obtain ⟨g', hgraph, hblocks, hnodes⟩ := h.toGraph_again hd
  refine ⟨g', hgraph, hblocks, hnodes.trans (Array.map_congr_left fun p hp => ?_)⟩
  have hcontrol : p.node.control.map g.recontrol = p.node.control := by
    conv_rhs => rw [← List.map_id p.node.control]
    exact List.map_congr_left fun c hc => recontrol_eq hnames (h.control p hp c hc)
  rw [readAgain, hcontrol]

end

/-- Printing and parsing agree on structure: the text of a parsed graph is parsed, and gives the same
blocks and node by node the same block, operator, controls, inputs and number of literals. -/
theorem parse_render {text : String} {g : Graph} (hparse : parse text = .ok g)
    (hnames : ∀ block ∈ g.blocks, isNodeName block.name.toList = false) :
    ∃ (s : String) (g' : Graph), g.render? = some s ∧ parse s = .ok g' ∧ g'.blocks = g.blocks ∧
      g'.nodes.size = g.nodes.size ∧
      ∀ (id : Nat) (p : Placed), g.nodes[id]? = some p →
        ∃ p' : Placed, g'.nodes[id]? = some p' ∧ p'.block = p.block ∧ p'.node.op = p.node.op ∧
          p'.node.control = p.node.control ∧ p'.node.inputs = p.node.inputs ∧
          p'.node.literals.length = p.node.literals.length := by
  have h := legible_of_parse hparse
  obtain ⟨s, hs, -⟩ := h.render?_eq
  obtain ⟨d, hread, hd⟩ := h.read_render hs
  obtain ⟨g', hgraph, hblocks, hnodes⟩ := h.toGraph_eq hd hnames
  refine ⟨s, g', hs, ?_, hblocks, by rw [hnodes, Array.size_map], fun id p hp => ?_⟩
  · have hboth : Draft.read (Piece.ofString s) >>= Draft.toGraph = .ok g' := by rw [hread]; exact hgraph
    rw [parse, hboth]
  · refine ⟨reread p, by rw [hnodes, Array.getElem?_map, hp, Option.map_some], rfl, rfl, rfl, rfl, ?_⟩
    exact List.length_map ..

/-- A text with names of its own, and with literals that are written in another way. -/
def sample : String :=
  "pipeline \x7b\n entry \x7b\n i7 = f64.const 0.50, inf\n z = i64.const -7, ^i7, ^entry, i7\n \x7d\n" ++
    " entry -> a loop, entry\n a loop \x7b\n \x7d\n\x7d"

theorem parse_render_sample : ∃ (g g' : Graph) (s : String), parse sample = .ok g ∧
    (∀ block ∈ g.blocks, isNodeName block.name.toList = false) ∧ g.nodes.size = 2 ∧
    g.render? = some s ∧ parse s = .ok g' ∧ g'.blocks = g.blocks ∧ g'.nodes.size = 2 := by
  have hsample : (parse sample).toOption.map (fun g =>
      (g.blocks.toList.all fun block => !isNodeName block.name.toList, g.nodes.size))
        = some (true, 2) := by
    decide +kernel
  cases hparse : parse sample with
  | error e =>
      rw [hparse] at hsample
      exact absurd hsample (by simp [Except.toOption])
  | ok g =>
      rw [hparse] at hsample
      simp only [Except.toOption, Option.map_some, Option.some.injEq, Prod.mk.injEq] at hsample
      obtain ⟨hall, hsize⟩ := hsample
      have hnames : ∀ block ∈ g.blocks, isNodeName block.name.toList = false := by
        intro block hmem
        simpa using List.all_eq_true.mp hall block (Array.mem_toList_iff.mpr hmem)
      obtain ⟨s, g', hs, hparse', hblocks, hnodes, -⟩ := parse_render hparse hnames
      exact ⟨g, g', s, rfl, hnames, hsize, hs, hparse', hblocks, hnodes.trans hsize⟩

end Graph

end Isel
