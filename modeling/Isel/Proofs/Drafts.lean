import Isel.Graph.Parser
import Isel.Proofs.Evaluation
import Isel.Proofs.OperatorNames
import Mathlib.Data.List.Nodup

/-! What is known of a text that was read as a graph. Whatever a line says, it leaves the draft in order:
blocks have different names that fit on a line, nodes stand in the order of their blocks, and what a node
or an edge names is a piece without commas. So every graph that is read can be written. -/

namespace Isel

open Text

/-- How a block can be named: by a text within a line that is not taken for an edge. -/
structure IsBlockName (cs : List Char) : Prop where
  ne_nil : cs ≠ []
  trimmed : Trimmed cs
  within : '\n' ∉ cs
  no_arrow : Piece.cutChars ['-', '>'] cs = none

namespace Operator

/-- The operator is read from its name, and the name is a single word. -/
structure Readable (op : Operator) : Prop where
  found : ofName? op.name = some op
  ne_nil : op.name.toList ≠ []
  word : ∀ c ∈ op.name.toList, isBlank c = false

theorem name_ne_empty (op : Operator) : op.name ≠ "" := by
  cases op with
  | load op => cases op <;> simp [name, Load.name, ToString.toString]
  | store op => cases op <;> simp [name, Store.name, ToString.toString]
  | convert op => cases op <;> simp [name, Conversion.name]
  | _ => simp [name, ToString.toString]

theorem readable_of_ofName? {op : Operator} {p : Piece} (h : ofName? p.text = some op)
    (hp : ∀ c ∈ p.chars, isBlank c = false) : op.Readable := by
  have hname := name_of_ofName? h
  refine ⟨hname ▸ h, fun hnil => op.name_ne_empty (String.toList_eq_nil_iff.mp hnil), ?_⟩
  rw [hname, Piece.text, String.toList_ofList]
  exact hp

end Operator

namespace Draft

variable {d d' : Draft} {s s' : Scope} {line : Piece} {b : Nat}

/-! ### One line -/

/-- A line of a block adds a node, whose operands are what stands between commas. -/
theorem readNode_ok (h : d.readNode b line = .ok d') : ∃ name op operands,
    d' = { d with lines := d.lines.push ⟨b, name, op, operands⟩ } ∧ op.Readable ∧
    ∀ t ∈ operands, ',' ∉ t.chars := by
  have hsplit (p : Piece) :
      ∀ t ∈ (if p.isEmpty then [] else (p.split ',').map Piece.trim), ',' ∉ t.chars := by
    intro t ht
    split at ht
    · exact absurd ht List.not_mem_nil
    · exact Piece.not_mem_of_mem_parts ht
  unfold readNode at h
  split at h
  · exact absurd h (by simp [complain])
  · rename_i name rest _
    dsimp only at h
    split at h
    · exact absurd h (by simp [complain])
    · cases hblank : rest.trim.cutBlank? with
      | some parts =>
          obtain ⟨opcode, operands⟩ := parts
          simp only [hblank] at h
          split at h
          · exact absurd h (by simp [complain])
          · rename_i op hop
            have hword := Piece.not_isBlank_of_cutBlank? hblank
            exact ⟨_, op, _, (Except.ok.inj h).symm, Operator.readable_of_ofName? hop hword, hsplit _⟩
      | none =>
          simp only [hblank] at h
          split at h
          · exact absurd h (by simp [complain])
          · rename_i op hop
            have hword := Piece.cutBlank?_eq_none.mp hblank
            exact ⟨_, op, _, (Except.ok.inj h).symm, Operator.readable_of_ofName? hop hword, hsplit _⟩

theorem findBlock?_lt {name : List Char} (h : d.findBlock? name = some b) : b < d.blocks.size :=
  (Array.findIdx?_eq_some_iff_getElem.mp h).1

theorem getElem?_of_findBlock? {name : List Char} (h : d.findBlock? name = some b) :
    d.blocks[b]? = some name := by
  obtain ⟨hlt, hname, -⟩ := Array.findIdx?_eq_some_iff_getElem.mp h
  rw [Array.getElem?_eq_getElem hlt]
  simpa using hname

theorem findBlock?_eq_none {name : List Char} : d.findBlock? name = none ↔ name ∉ d.blocks := by
  unfold findBlock?
  rw [Array.findIdx?_eq_none_iff]
  constructor
  · intro h hmem
    simpa using h name hmem
  · intro h other hother
    exact beq_eq_false_iff_ne.mpr fun heq => h (heq ▸ hother)

/-- A line between blocks ends the graph, adds edges from a block that was read before, or opens a block
that has a new name. -/
theorem readOuter_ok (hline : '\n' ∉ line.chars) (h : d.readOuter line = .ok (s, d')) :
    (s = .done ∧ d' = d) ∨
    (∃ (b : Nat) (targets : List Piece), s = .pipeline ∧ b < d.blocks.size ∧
      (∀ t ∈ targets, ',' ∉ t.chars) ∧
      d' = { d with edges := d.edges ++ (targets.map (b, ·)).toArray }) ∨
    (∃ name, s = .block d.blocks.size ∧ IsBlockName name ∧ name ∉ d.blocks ∧
      d' = { d with blocks := d.blocks.push name }) := by
  unfold readOuter at h
  split at h
  · obtain ⟨rfl, rfl⟩ := Prod.mk.injEq .. ▸ Except.ok.inj h
    exact .inl ⟨rfl, rfl⟩
  · split at h
    · rename_i source targets _
      dsimp only at h
      split at h
      · exact absurd h (by simp [complain])
      · rename_i b hb
        obtain ⟨rfl, rfl⟩ := Prod.mk.injEq .. ▸ Except.ok.inj h
        refine .inr (.inl ⟨b, (targets.split ',').map Piece.trim, rfl, findBlock?_lt hb, ?_, ?_⟩)
        · exact fun t => Piece.not_mem_of_mem_parts
        · rw [List.map_map]
          rfl
    · rename_i hcut
      split at h
      · exact absurd h (by simp [complain])
      · rename_i name hname
        split at h
        · exact absurd h (by simp [complain])
        · rename_i hnew
          obtain ⟨rfl, rfl⟩ := Prod.mk.injEq .. ▸ Except.ok.inj h
          obtain ⟨hne, hfresh⟩ := not_or.mp (mt (Bool.or_eq_true _ _).mpr hnew)
          obtain ⟨p, hp, rfl⟩ := Option.map_eq_some_iff.mp hname
          have hwithin : p.trim.chars <:+: line.chars := by
            refine (strip_within _).trans ?_
            unfold Piece.beforeLast? at hp
            split at hp
            · exact absurd hp (by simp)
            · rename_i c rest hreverse
              split at hp
              · cases hp
                rw [← List.reverse_infix, List.reverse_reverse, hreverse]
                exact (List.suffix_cons c rest).isInfix
              · exact absurd hp (by simp)
          refine .inr (.inr ⟨p.trim.chars, rfl, ⟨?_, trimmed_strip _, ?_, ?_⟩, ?_, rfl⟩)
          · simpa [Piece.isEmpty] using hne
          · exact fun hmem => hline (hwithin.subset hmem)
          · exact cutChars_within hwithin (Option.map_eq_none_iff.mp hcut)
          · exact findBlock?_eq_none.mp (by simpa using hfresh)

/-! ### All lines -/

/-- A node that was read: its block is there, its operator has a name, and no operand holds a comma. -/
structure Line.Sound (blocks : Nat) (line : Line) : Prop where
  block_lt : line.block < blocks
  readable : line.op.Readable
  tokens : ∀ t ∈ line.operands, ',' ∉ t.chars

/-- A draft in order, with the next line expected in `scope`. -/
structure Sound (scope : Scope) (d : Draft) : Prop where
  names : ∀ name ∈ d.blocks, IsBlockName name
  distinct : d.blocks.toList.Nodup
  current : ∀ b, scope = .block b → b + 1 = d.blocks.size
  lines : ∀ line ∈ d.lines, line.Sound d.blocks.size
  sorted : d.lines.toList.Pairwise fun x y => x.block ≤ y.block
  edges : ∀ e ∈ d.edges, e.1 < d.blocks.size ∧ ',' ∉ e.2.chars

theorem Line.Sound.mono {n m : Nat} {line : Line} (h : line.Sound n) (hle : n ≤ m) : line.Sound m :=
  ⟨Nat.lt_of_lt_of_le h.block_lt hle, h.readable, h.tokens⟩

theorem sound_start : Sound .start {} where
  names := by simp
  distinct := List.nodup_nil
  current := by simp
  lines := by simp
  sorted := List.Pairwise.nil
  edges := by simp

theorem Sound.rescope (h : Sound s d) (hs : ∀ b, s' ≠ .block b) : Sound s' d :=
  ⟨h.names, h.distinct, fun b hb => absurd hb (hs b), h.lines, h.sorted, h.edges⟩

theorem Sound.pushLine (h : Sound (.block b) d) {name : List Char} {op : Operator}
    {operands : List Piece} (hop : op.Readable) (htokens : ∀ t ∈ operands, ',' ∉ t.chars) :
    Sound (.block b) { d with lines := d.lines.push ⟨b, name, op, operands⟩ } := by
  have hcurrent := h.current b rfl
  refine ⟨h.names, h.distinct, h.current, fun line hline => ?_, ?_, h.edges⟩
  · rcases Array.mem_push.mp hline with hline | rfl
    · exact h.lines line hline
    · exact ⟨show b < d.blocks.size by omega, hop, htokens⟩
  · rw [Array.toList_push, List.pairwise_append]
    refine ⟨h.sorted, List.pairwise_singleton _ _, fun x hx y hy => ?_⟩
    -- the block that is read is the last one so far
    have hx := (h.lines x (Array.mem_toList_iff.mp hx)).block_lt
    rw [List.mem_singleton.mp hy]
    show x.block ≤ b
    omega

theorem Sound.pushEdges (h : Sound .pipeline d) {targets : List Piece} (hb : b < d.blocks.size)
    (htargets : ∀ t ∈ targets, ',' ∉ t.chars) :
    Sound .pipeline { d with edges := d.edges ++ (targets.map (b, ·)).toArray } := by
  refine ⟨h.names, h.distinct, by simp, h.lines, h.sorted, fun e he => ?_⟩
  rcases Array.mem_append.mp he with he | he
  · exact h.edges e he
  · obtain ⟨t, ht, rfl⟩ := List.mem_map.mp (List.mem_toArray.mp he)
    exact ⟨hb, htargets t ht⟩

theorem Sound.pushBlock (h : Sound .pipeline d) {name : List Char} (hname : IsBlockName name)
    (hnew : name ∉ d.blocks) :
    Sound (.block d.blocks.size) { d with blocks := d.blocks.push name } := by
  refine ⟨fun name' hname' => ?_, ?_, fun b hb => ?_, fun line hline => ?_, h.sorted, fun e he => ?_⟩
  · rcases Array.mem_push.mp hname' with hname' | rfl
    · exact h.names name' hname'
    · exact hname
  · rw [Array.toList_push, List.nodup_append]
    refine ⟨h.distinct, List.pairwise_singleton _ name, fun x hx y hy hxy => ?_⟩
    rw [hxy, List.mem_singleton.mp hy] at hx
    exact hnew (Array.mem_toList_iff.mp hx)
  · cases hb
    rw [Array.size_push]
  · rw [Array.size_push]
    exact (h.lines line hline).mono (Nat.le_succ _)
  · obtain ⟨hlt, hcomma⟩ := h.edges e he
    rw [Array.size_push]
    exact ⟨Nat.lt_succ_of_lt hlt, hcomma⟩

theorem Sound.readLine (h : Sound s d) (hline : '\n' ∉ line.chars)
    (hread : readLine (s, d) line = .ok (s', d')) : Sound s' d' := by
  cases s with
  | start =>
      rw [Draft.readLine] at hread
      split at hread
      · obtain ⟨rfl, rfl⟩ := Prod.mk.injEq .. ▸ Except.ok.inj hread
        exact h.rescope (by simp)
      · exact absurd hread (by simp [complain])
  | pipeline =>
      rcases readOuter_ok hline hread with ⟨rfl, rfl⟩ | ⟨b, targets, rfl, hb, htargets, rfl⟩ |
        ⟨name, rfl, hname, hnew, rfl⟩
      · exact h.rescope (by simp)
      · exact h.pushEdges hb htargets
      · exact h.pushBlock hname hnew
  | block b =>
      rw [Draft.readLine] at hread
      split at hread
      · obtain ⟨rfl, rfl⟩ := Prod.mk.injEq .. ▸ Except.ok.inj hread
        exact h.rescope (by simp)
      · obtain ⟨d₁, hnode, heq⟩ := map_eq_ok.mp hread
        obtain ⟨rfl, rfl⟩ := Prod.mk.injEq .. ▸ heq
        obtain ⟨name, op, operands, rfl, hop, htokens⟩ := readNode_ok hnode
        exact h.pushLine hop htokens
  | done => exact absurd hread (by simp [Draft.readLine, complain])

theorem Sound.foldlM {lines : List Piece} (h : Sound s d) (hlines : ∀ line ∈ lines, '\n' ∉ line.chars)
    (hread : lines.foldlM Draft.readLine (s, d) = .ok (s', d')) : Sound s' d' := by
  induction lines generalizing s d with
  | nil =>
      obtain ⟨rfl, rfl⟩ := Prod.mk.injEq .. ▸ Except.ok.inj hread
      exact h
  | cons line lines ih =>
      rw [List.foldlM_cons, bind_eq_ok] at hread
      obtain ⟨⟨s₁, d₁⟩, hfirst, hrest⟩ := hread
      obtain ⟨hline, hlines⟩ := List.forall_mem_cons.mp hlines
      exact ih (h.readLine hline hfirst) hlines hrest

theorem sound_of_read {text : Piece} (h : read text = .ok d) : Sound .done d := by
  unfold read at h
  obtain ⟨⟨scope, d₁⟩, hread, h⟩ := bind_eq_ok.mp h
  dsimp only at h
  split at h
  · rename_i hdone
    cases h
    rw [hdone] at hread
    exact sound_start.foldlM (fun _ => Piece.not_mem_of_mem_lines) hread
  · exact absurd h (by simp [complain])

end Draft

/-! ### The graph -/

namespace Graph

/-- The block can be one of several that are named in a line. -/
def Listed (g : Graph) (b : Nat) : Prop := ∃ block, g.blocks[b]? = some block ∧ ',' ∉ block.name.toList

/-- What a node waits for can be named. -/
def Nameable (g : Graph) : Control → Prop
  | .block b => g.Listed b
  | .node n => n < g.nodes.size

/-- A graph that can be written: its blocks have different names, its nodes stand in the order of their
blocks, and whatever is referred to is there and can be named. -/
structure Legible (g : Graph) : Prop where
  names : ∀ block ∈ g.blocks, IsBlockName block.name.toList
  distinct : (g.blocks.toList.map Block.name).Nodup
  successors : ∀ block ∈ g.blocks, ∀ b ∈ block.successors, g.Listed b
  sorted : g.nodes.toList.Pairwise fun p q => p.block ≤ q.block
  readable : ∀ p ∈ g.nodes, p.node.op.Readable
  control : ∀ p ∈ g.nodes, ∀ c ∈ p.node.control, g.Nameable c
  inputs : ∀ p ∈ g.nodes, ∀ v ∈ p.node.inputs, v < g.nodes.size

theorem nodes_ofParts {blocks : Array Block} {nodes : Array Placed}
    (h : ∀ p ∈ nodes, p.block < blocks.size) : (ofParts blocks nodes).nodes = nodes := by
  refine Array.filter_eq_self.mpr fun p hp => ?_
  exact decide_eq_true (h p hp)

end Graph

namespace Draft

variable {d : Draft} {n n' : Node} {op : Operator} {g : Graph}

/-- What a control of a draft stands for. -/
def Names (d : Draft) : Control → Prop
  | .block b => ∃ name, d.blocks[b]? = some name ∧ ',' ∉ name
  | .node n => n < d.lines.size

/-- A node whose operands are names of the draft. -/
structure Resolved (d : Draft) (op : Operator) (n : Node) : Prop where
  op_eq : n.op = op
  control : ∀ c ∈ n.control, d.Names c
  inputs : ∀ v ∈ n.inputs, v < d.lines.size

theorem findNode?_lt {name : List Char} {id : Nat} (h : d.findNode? name = some id) :
    id < d.lines.size :=
  (Array.findIdx?_eq_some_iff_getElem.mp h).1

theorem names_of_control {name : Piece} {c : Control} (hname : ',' ∉ name.chars)
    (h : d.control name = .ok c) : d.Names c := by
  unfold control at h
  split at h
  · rename_i id hid
    cases h
    exact findNode?_lt hid
  · split at h
    · rename_i b hb
      cases h
      exact ⟨name.chars, getElem?_of_findBlock? hb, hname⟩
    · exact absurd h (by simp [complain])

theorem Resolved.addOperand (hn : Resolved d op n) {token : Piece} (htoken : ',' ∉ token.chars)
    (h : d.addOperand n token = .ok n') : Resolved d op n' := by
  unfold Draft.addOperand at h
  split at h
  · rename_i name hname
    obtain ⟨c, hc, h⟩ := bind_eq_ok.mp h
    cases h
    have hcomma : ',' ∉ name.chars := by
      unfold Piece.afterFirst? at hname
      split at hname
      · exact absurd hname (by simp)
      · rename_i first rest hchars
        split at hname
        · cases hname
          rw [hchars] at htoken
          exact fun hmem => htoken (List.mem_cons_of_mem _ hmem)
        · exact absurd hname (by simp)
    refine ⟨hn.op_eq, fun c' hc' => ?_, hn.inputs⟩
    rcases List.mem_append.mp hc' with hc' | hc'
    · exact hn.control c' hc'
    · rw [List.mem_singleton.mp hc']
      exact names_of_control hcomma hc
  · split at h
    · rename_i id hid
      cases h
      refine ⟨hn.op_eq, hn.control, fun v hv => ?_⟩
      rcases List.mem_append.mp hv with hv | hv
      · exact hn.inputs v hv
      · rw [List.mem_singleton.mp hv]
        exact findNode?_lt hid
    · split at h
      · cases h
        exact ⟨hn.op_eq, hn.control, hn.inputs⟩
      · exact absurd h (by simp [complain])

theorem Resolved.foldlM {tokens : List Piece} (hn : Resolved d op n)
    (htokens : ∀ t ∈ tokens, ',' ∉ t.chars) (h : tokens.foldlM d.addOperand n = .ok n') :
    Resolved d op n' := by
  induction tokens generalizing n with
  | nil =>
      cases h
      exact hn
  | cons t tokens ih =>
      rw [List.foldlM_cons, bind_eq_ok] at h
      obtain ⟨n₁, hfirst, hrest⟩ := h
      obtain ⟨ht, htokens⟩ := List.forall_mem_cons.mp htokens
      exact ih (hn.addOperand ht hfirst) htokens hrest

theorem block_of_node {line : Line} {p : Placed} (h : d.node line = .ok p) : p.block = line.block := by
  obtain ⟨n, -, h⟩ := bind_eq_ok.mp h
  exact congrArg Placed.block (Except.ok.inj h).symm

theorem resolved_of_node {line : Line} {p : Placed} (hline : line.Sound d.blocks.size)
    (h : d.node line = .ok p) : Resolved d line.op p.node := by
  obtain ⟨n, hn, h⟩ := bind_eq_ok.mp h
  cases h
  exact Resolved.foldlM ⟨rfl, by simp, by simp⟩ hline.tokens hn

theorem getElem?_blocksWith (edges : List (Nat × Nat)) (b : Nat) :
    (d.blocksWith edges)[b]? = d.blocks[b]?.map fun name =>
      { name := String.ofList name, successors := (edges.filter (·.1 == b)).map Prod.snd } :=
  Array.getElem?_mapIdx ..

theorem exists_of_mem_blocksWith {edges : List (Nat × Nat)} {block : Block}
    (hmem : block ∈ d.blocksWith edges) : ∃ b, ∃ name ∈ d.blocks, block =
      { name := String.ofList name, successors := (edges.filter (·.1 == b)).map Prod.snd } := by
  obtain ⟨b, hb⟩ := Array.mem_iff_getElem?.mp hmem
  rw [getElem?_blocksWith] at hb
  obtain ⟨name, hname, rfl⟩ := Option.map_eq_some_iff.mp hb
  exact ⟨b, name, Array.mem_of_getElem? hname, rfl⟩

theorem names_blocksWith (edges : List (Nat × Nat)) :
    (d.blocksWith edges).toList.map Block.name = d.blocks.toList.map String.ofList := by
  ext1 b
  rw [List.getElem?_map, List.getElem?_map, Array.getElem?_toList, Array.getElem?_toList,
    getElem?_blocksWith, Option.map_map]
  rfl

theorem getElem?_of_edge {e : Nat × Piece} {f : Nat × Nat} (h : d.edge e = .ok f) :
    d.blocks[f.2]? = some e.2.chars := by
  obtain ⟨source, target⟩ := e
  rw [edge] at h
  split at h
  · rename_i b hb
    cases h
    exact getElem?_of_findBlock? hb
  · exact absurd h (by simp [complain])

theorem toGraph_ok (h : d.toGraph = .ok g) : ∃ nodes edges,
    List.Forall₂ (fun line p => d.node line = .ok p) d.lines.toList nodes ∧
    List.Forall₂ (fun e f => d.edge e = .ok f) d.edges.toList edges ∧
    g = .ofParts (d.blocksWith edges) nodes.toArray := by
  obtain ⟨nodes, hnodes, h⟩ := bind_eq_ok.mp h
  obtain ⟨edges, hedges, h⟩ := bind_eq_ok.mp h
  exact ⟨nodes, edges, mapM_eq_ok.mp hnodes, mapM_eq_ok.mp hedges, (Except.ok.inj h).symm⟩

theorem Sound.legible {s : Scope} (hd : Sound s d) (h : d.toGraph = .ok g) : g.Legible := by
  obtain ⟨nodes, edges, hnodes, hedges, rfl⟩ := toGraph_ok h
  have hsize : (d.blocksWith edges).size = d.blocks.size := Array.size_mapIdx
  have hlength : nodes.length = d.lines.size := by
    rw [← hnodes.length_eq, Array.length_toList]
  have hnode {p : Placed} (hp : p ∈ nodes) :
      ∃ line : Line, line.Sound d.blocks.size ∧ p.block = line.block ∧ Resolved d line.op p.node := by
    obtain ⟨line, hline, hread⟩ := exists_of_forall₂_right hnodes hp
    have hmem := Array.mem_toList_iff.mp hline
    exact ⟨line, hd.lines line hmem, block_of_node hread, resolved_of_node (hd.lines line hmem) hread⟩
  have hkept : (Graph.ofParts (d.blocksWith edges) nodes.toArray).nodes = nodes.toArray := by
    refine Graph.nodes_ofParts fun p hp => ?_
    obtain ⟨line, hline, hblock, -⟩ := hnode (List.mem_toArray.mp hp)
    rw [hsize, hblock]
    exact hline.block_lt
  have hlisted {b : Nat} {name : List Char} (hname : d.blocks[b]? = some name) (hcomma : ',' ∉ name) :
      (Graph.ofParts (d.blocksWith edges) nodes.toArray).Listed b := by
    refine ⟨_, (getElem?_blocksWith edges b).trans (by rw [hname]; rfl), ?_⟩
    rw [String.toList_ofList]
    exact hcomma
  constructor
  case names =>
    intro block hmem
    obtain ⟨b, name, hname, rfl⟩ := exists_of_mem_blocksWith hmem
    rw [String.toList_ofList]
    exact hd.names name hname
  case distinct =>
    change ((d.blocksWith edges).toList.map Block.name).Nodup
    rw [names_blocksWith]
    exact List.Nodup.map (fun _ _ => String.ofList_injective) hd.distinct
  case successors =>
    intro block hmem b hb
    obtain ⟨c, name, -, rfl⟩ := exists_of_mem_blocksWith hmem
    obtain ⟨e, he, rfl⟩ := List.mem_map.mp hb
    obtain ⟨e', he', hread⟩ := exists_of_forall₂_right hedges (List.mem_filter.mp he).1
    exact hlisted (getElem?_of_edge hread) (hd.edges e' (Array.mem_toList_iff.mp he')).2
  case sorted =>
    have hblocks : List.Forall₂ (· = ·) (d.lines.toList.map Line.block) (nodes.map Placed.block) := by
      rw [List.forall₂_map_left_iff, List.forall₂_map_right_iff]
      exact hnodes.imp fun line p hp => (block_of_node hp).symm
    rw [List.forall₂_eq_eq_eq] at hblocks
    rw [hkept, List.toList_toArray, ← List.pairwise_map, ← hblocks, List.pairwise_map]
    exact hd.sorted
  case readable =>
    rw [hkept]
    intro p hp
    obtain ⟨line, hline, -, hresolved⟩ := hnode (List.mem_toArray.mp hp)
    rw [hresolved.op_eq]
    exact hline.readable
  case control =>
    rw [hkept]
    intro p hp c hc
    obtain ⟨line, -, -, hresolved⟩ := hnode (List.mem_toArray.mp hp)
    have hnames := hresolved.control c hc
    cases c with
    | block b =>
        obtain ⟨name, hname, hcomma⟩ := hnames
        exact hlisted hname hcomma
    | node id =>
        change id < (Graph.ofParts _ _).nodes.size
        rw [hkept, List.size_toArray, hlength]
        exact hnames
  case inputs =>
    rw [hkept]
    intro p hp v hv
    obtain ⟨line, -, -, hresolved⟩ := hnode (List.mem_toArray.mp hp)
    rw [List.size_toArray, hlength]
    exact hresolved.inputs v hv

end Draft

/-- Every graph that is read can be written. -/
theorem Graph.legible_of_parse {text : String} {g : Graph} (h : parse text = .ok g) : g.Legible := by
  unfold parse at h
  split at h
  · rename_i g' hread
    cases h
    obtain ⟨d, hd, hgraph⟩ := bind_eq_ok.mp hread
    exact (Draft.sound_of_read hd).legible hgraph
  · exact absurd h (by simp)

end Isel
