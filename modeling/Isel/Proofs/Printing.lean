import Isel.Graph.Printer
import Isel.Proofs.Drafts
import Isel.Proofs.Layout
import Isel.Proofs.Numerals
import Mathlib.Data.List.Sort

/-! The text of a graph, line by line. A graph that can be written is numbered along its nodes, and its
text is made of lines for its blocks, nodes and edges, in which names and operands stand between commas. -/

namespace Isel

open Text

/-! ### Names -/

/-- How nodes are named: a letter and a number. -/
def nodeName (id : Nat) : List Char := 'i' :: Nat.toDigits 10 id

/-- A name that a node may have. -/
def isNodeName : List Char → Bool
  | 'i' :: ds => !ds.isEmpty && ds.all Char.isDigit
  | _ => false

theorem isNodeName_nodeName (id : Nat) : isNodeName (nodeName id) = true := by
  simp only [isNodeName, nodeName, Bool.and_eq_true, Bool.not_eq_true', List.isEmpty_eq_false_iff,
    List.all_eq_true]
  exact ⟨Nat.toDigits_ne_nil, fun _ => Decimal.isDigit_of_mem_toDigits⟩

theorem nodeName_inj {i j : Nat} : nodeName i = nodeName j ↔ i = j := by
  refine ⟨fun h => ?_, fun h => h ▸ rfl⟩
  calc i = Nat.ofDigitChars 10 (Nat.toDigits 10 i) 0 := Nat.ofDigitChars_ten_toDigits.symm
    _ = Nat.ofDigitChars 10 (Nat.toDigits 10 j) 0 := by rw [(List.cons.inj h).2]
    _ = j := Nat.ofDigitChars_ten_toDigits

theorem isToken_nodeName (id : Nat) : IsToken (nodeName id) := by
  refine Decimal.isToken_of_isPlain (List.cons_ne_nil _ _) fun c hc => ?_
  rcases List.mem_cons.mp hc with rfl | hc
  · decide
  · simp [Decimal.isPlain, Decimal.isDigit_of_mem_toDigits hc]

theorem Text.IsToken.marked {cs : List Char} (h : IsToken cs) : IsToken ('^' :: cs) where
  ne_nil := List.cons_ne_nil _ _
  trimmed := by
    have hmark : Trimmed ['^'] := .of_all (by decide)
    simpa using hmark.around h.trimmed (List.cons_ne_nil _ _) h.ne_nil []
  within := by simpa using h.within
  no_comma := by simpa using h.no_comma

namespace Literal

open Decimal

/-- No node is named like a literal. -/
theorem isNodeName_render (l : Literal) : isNodeName l.render.toList = false := by
  have hspelling := l.spelling_render
  generalize l.render.toList = cs at hspelling
  cases hspelling with
  | negative h => rfl
  | positive h =>
      cases h with
      | nan => rfl
      | infinite => rfl
      | finite hne hwhole _ =>
          obtain ⟨c, rest, rfl⟩ := List.exists_cons_of_ne_nil hne
          have hc : c ≠ 'i' := by
            rintro rfl
            exact absurd (hwhole 'i' List.mem_cons_self) (by decide)
          rw [List.cons_append]
          unfold isNodeName
          split
          · rename_i heq
            exact absurd (List.cons.inj heq).1 hc
          · rfl

end Literal

/-! ### Lines -/

namespace Graph

variable {g : Graph} {id b : Nat}

/-- The nodes of a graph that can be written are laid out as they are numbered. -/
theorem Legible.layout_eq (h : g.Legible) : g.layout = List.range g.nodes.size := by
  have hsorted : g.layout.Pairwise (· < ·) := by
    refine List.pairwise_flatMap.mpr ⟨fun b _ => members_sorted g b, ?_⟩
    refine List.pairwise_lt_range.imp fun {b c} hlt i hi j hj => ?_
    obtain ⟨n, hn⟩ := blockOf?_eq_some.mp (mem_members.mp hi)
    obtain ⟨m, hm⟩ := blockOf?_eq_some.mp (mem_members.mp hj)
    -- otherwise the node of the later block would come first
    by_contra hge
    obtain ⟨hi', hn'⟩ := Array.getElem?_eq_some_iff.mp hn
    obtain ⟨hj', hm'⟩ := Array.getElem?_eq_some_iff.mp hm
    rcases Nat.lt_or_eq_of_le (Nat.le_of_not_lt hge) with hji | rfl
    · have hle := List.pairwise_iff_getElem.mp h.sorted j i (by simpa using hj') (by simpa using hi') hji
      rw [Array.getElem_toList, Array.getElem_toList, hn', hm'] at hle
      exact absurd hle (Nat.not_le.mpr hlt)
    · have heq := congrArg Placed.block (hn'.symm.trans hm')
      exact absurd heq (Nat.ne_of_lt hlt)
  refine hsorted.eq_of_mem_iff List.pairwise_lt_range fun id => ?_
  rw [mem_layout, List.mem_range]
  constructor
  · rintro ⟨b, hb⟩
    exact id_lt_of_blockOf? hb
  · intro hlt
    exact ⟨g.nodes[id].block, blockOf?_eq_some.mpr ⟨g.nodes[id].node, Array.getElem?_eq_getElem hlt⟩⟩

/-- A node, or some node if there is none. -/
def placedAt (g : Graph) (id : Nat) : Placed := g.nodes[id]?.getD ⟨0, { op := .state }⟩

/-- A block, or some block if there is none. -/
def blockAt (g : Graph) (b : Nat) : Block := g.blocks[b]?.getD { name := "" }

theorem placedAt_eq {p : Placed} (h : g.nodes[id]? = some p) : g.placedAt id = p := by
  rw [placedAt, h, Option.getD_some]

theorem blockAt_eq {block : Block} (h : g.blocks[b]? = some block) : g.blockAt b = block := by
  rw [blockAt, h, Option.getD_some]

def nameOf (g : Graph) (b : Nat) : List Char := (g.blockAt b).name.toList

def controlText (g : Graph) : Control → List Char
  | .block b => '^' :: g.nameOf b
  | .node n => '^' :: nodeName n

/-- What is written behind the operator of a node. -/
def tokens (g : Graph) (n : Node) : List (List Char) :=
  n.control.map g.controlText ++ n.literals.map (·.render.toList) ++ n.inputs.map nodeName

def operandText (ts : List (List Char)) : List Char := if ts = [] then [] else ' ' :: listed ts

def nodeLine (g : Graph) (id : Nat) : List Char :=
  let n := (g.placedAt id).node
  nodeName id ++ ([' ', '=', ' '] ++ (n.op.name.toList ++ operandText (g.tokens n)))

def openingLine (g : Graph) (b : Nat) : List Char := g.nameOf b ++ [' ', '\x7b']

def edgeLines (g : Graph) (b : Nat) : List (List Char) :=
  let targets := (g.blockAt b).successors.map g.nameOf
  if targets = [] then [] else [g.nameOf b ++ ([' ', '-', '>', ' '] ++ listed targets)]

def blockLines (g : Graph) (b : Nat) : List (List Char) :=
  g.openingLine b :: ((g.members b).map g.nodeLine ++ (['\x7d'] :: g.edgeLines b))

def textLines (g : Graph) : List (List Char) :=
  "pipeline \x7b".toList :: ((List.range g.blocks.size).flatMap g.blockLines ++ [['\x7d']])

/-- An operator with its operands is a text within a line, with no blanks around it. -/
theorem operation_spec {op : Operator} {ts : List (List Char)} (hop : op.Readable)
    (hts : ∀ t ∈ ts, IsToken t) : op.name.toList ++ operandText ts ≠ [] ∧
      Trimmed (op.name.toList ++ operandText ts) ∧ '\n' ∉ op.name.toList ++ operandText ts := by
  have hword : '\n' ∉ op.name.toList := fun hmem => absurd (hop.word _ hmem) (by decide)
  refine ⟨by simp [hop.ne_nil], ?_⟩
  by_cases hnil : ts = []
  · rw [operandText, if_pos hnil, List.append_nil]
    exact ⟨.of_word hop.word, hword⟩
  · obtain ⟨hne, htrimmed, hwithin⟩ := listed_spec hts hnil
    rw [operandText, if_neg hnil]
    refine ⟨Trimmed.around (.of_word hop.word) htrimmed hop.ne_nil hne [' '], ?_⟩
    simp [hword, hwithin]

theorem textLines_ne_nil (g : Graph) : ∀ l ∈ g.textLines, l ≠ [] := by
  intro l hl
  rcases List.mem_cons.mp hl with rfl | hl
  · exact List.cons_ne_nil _ _
  rcases List.mem_append.mp hl with hl | hl
  · obtain ⟨b, -, hl⟩ := List.mem_flatMap.mp hl
    rcases List.mem_cons.mp hl with rfl | hl
    · simp [openingLine]
    rcases List.mem_append.mp hl with hl | hl
    · obtain ⟨id, -, rfl⟩ := List.mem_map.mp hl
      exact List.cons_ne_nil _ _
    rcases List.mem_cons.mp hl with rfl | hl
    · exact List.cons_ne_nil _ _
    · unfold edgeLines at hl
      dsimp only at hl
      split at hl
      · exact absurd hl List.not_mem_nil
      · rw [List.mem_singleton.mp hl]
        simp
  · rw [List.mem_singleton.mp hl]
    exact List.cons_ne_nil _ _

section

variable (h : g.Legible)

include h

theorem Legible.number?_eq (hid : id < g.nodes.size) : g.number? id = some id := by
  rw [number?, h.layout_eq, List.idxOf?, List.findIdx?_eq_some_iff_getElem]
  refine ⟨by simpa using hid, by simp, fun j hj => ?_⟩
  simpa using Nat.ne_of_lt hj

theorem Legible.nodeName?_eq (hid : id < g.nodes.size) :
    ∃ s, g.nodeName? id = some s ∧ s.toList = nodeName id := by
  refine ⟨_, by rw [nodeName?, h.number?_eq hid, Option.map_some], ?_⟩
  change ("i" ++ toString id).toList = _
  rw [String.toList_append, Nat.toString_eq_ofList_toDigits, String.toList_ofList, String.toList_ofList]
  rfl

omit h in
theorem blockName?_eq {block : Block} (hb : g.blocks[b]? = some block) :
    ∃ s, g.blockName? b = some s ∧ s.toList = g.nameOf b := by
  refine ⟨block.name, ?_, ?_⟩
  · rw [blockName?, block?, hb, Option.map_some]
  · rw [nameOf, blockAt_eq hb]

theorem Legible.renderControl?_eq {c : Control} (hc : g.Nameable c) :
    ∃ s, g.renderControl? c = some s ∧ s.toList = g.controlText c := by
  cases c with
  | block b =>
      obtain ⟨block, hb, -⟩ := hc
      obtain ⟨s, hs, hchars⟩ := blockName?_eq hb
      exact ⟨_, by rw [renderControl?, hs, Option.map_some], by rw [String.toList_append, hchars]; rfl⟩
  | node n =>
      obtain ⟨s, hs, hchars⟩ := h.nodeName?_eq hc
      exact ⟨_, by rw [renderControl?, hs, Option.map_some], by rw [String.toList_append, hchars]; rfl⟩

end

/-- Texts that are written one by one. -/
theorem mapM_toList {α : Type} {f : α → Option String} {text : α → List Char} {xs : List α}
    (h : ∀ x ∈ xs, ∃ s, f x = some s ∧ s.toList = text x) :
    ∃ ss, xs.mapM f = some ss ∧ ss.map String.toList = xs.map text := by
  induction xs with
  | nil => exact ⟨[], rfl, rfl⟩
  | cons x xs ih =>
      obtain ⟨⟨s, hs, htext⟩, hxs⟩ := List.forall_mem_cons.mp h
      obtain ⟨ss, hss, htexts⟩ := ih hxs
      exact ⟨s :: ss, by rw [List.mapM_cons, hs, hss]; rfl, by rw [List.map_cons, htext, htexts]; rfl⟩

/-- Texts that are written one by one, each in lines. -/
theorem mapM_lined {α : Type} {f : α → Option String} {lines : α → List (List Char)} {xs : List α}
    (h : ∀ x ∈ xs, ∃ s, f x = some s ∧ Lined s.toList (lines x)) :
    ∃ ss, xs.mapM f = some ss ∧ Lined (String.join ss).toList (xs.flatMap lines) := by
  induction xs with
  | nil => exact ⟨[], rfl, .nil⟩
  | cons x xs ih =>
      obtain ⟨⟨s, hs, hlined⟩, hxs⟩ := List.forall_mem_cons.mp h
      obtain ⟨ss, hss, hlineds⟩ := ih hxs
      refine ⟨s :: ss, by rw [List.mapM_cons, hs, hss]; rfl, ?_⟩
      rw [String.join_cons, String.toList_append, List.flatMap_cons]
      exact hlined.append hlineds

section

variable (h : g.Legible)

include h

theorem Legible.operands?_eq {p : Placed} (hp : p ∈ g.nodes) :
    ∃ ss, g.operands? p.node = some ss ∧ ss.map String.toList = g.tokens p.node := by
  obtain ⟨cs, hcs, hcontrol⟩ := mapM_toList fun c hc => h.renderControl?_eq (h.control p hp c hc)
  obtain ⟨vs, hvs, hinputs⟩ := mapM_toList fun v hv => h.nodeName?_eq (h.inputs p hp v hv)
  refine ⟨cs ++ p.node.literals.map Literal.render ++ vs, ?_, ?_⟩
  · rw [operands?, hcs, hvs]
    rfl
  · rw [tokens, List.map_append, List.map_append, hcontrol, hinputs, List.map_map]
    rfl

theorem Legible.isToken_nameOf (hb : g.Listed b) : IsToken (g.nameOf b) := by
  obtain ⟨block, hb, hcomma⟩ := hb
  have hname := h.names block (Array.mem_of_getElem? hb)
  rw [nameOf, blockAt_eq hb]
  exact ⟨hname.ne_nil, hname.trimmed, hname.within, hcomma⟩

theorem Legible.isToken {p : Placed} (hp : p ∈ g.nodes) : ∀ t ∈ g.tokens p.node, IsToken t := by
  intro t ht
  rw [tokens, List.mem_append, List.mem_append] at ht
  rcases ht with (ht | ht) | ht
  · obtain ⟨c, hc, rfl⟩ := List.mem_map.mp ht
    have hnameable := h.control p hp c hc
    cases c with
    | block b => exact (h.isToken_nameOf hnameable).marked
    | node n => exact (isToken_nodeName n).marked
  · obtain ⟨l, -, rfl⟩ := List.mem_map.mp ht
    exact l.isToken_render
  · obtain ⟨v, -, rfl⟩ := List.mem_map.mp ht
    exact isToken_nodeName v

/-- The line of a node fits on a line. -/
theorem Legible.nodeLine_spec {p : Placed} (hp : g.nodes[id]? = some p) :
    Trimmed (g.nodeLine id) ∧ '\n' ∉ g.nodeLine id := by
  have hmem := Array.mem_of_getElem? hp
  have hname := isToken_nodeName id
  obtain ⟨hne, htrimmed, hwithin⟩ := operation_spec (h.readable p hmem) (h.isToken hmem)
  rw [nodeLine, placedAt_eq hp]
  refine ⟨hname.trimmed.around htrimmed hname.ne_nil hne _, ?_⟩
  rw [List.mem_append, List.mem_append, not_or, not_or]
  exact ⟨hname.within, by decide, hwithin⟩

theorem Legible.renderNode?_eq {p : Placed} (hp : g.nodes[id]? = some p) :
    ∃ s, g.renderNode? id = some s ∧ Lined s.toList [g.nodeLine id] := by
  obtain ⟨name, hname, hnameChars⟩ := h.nodeName?_eq (Array.getElem?_eq_some_iff.mp hp).1
  obtain ⟨ss, hss, htokens⟩ := h.operands?_eq (Array.mem_of_getElem? hp)
  have hoperands : (if ss.isEmpty then "" else " " ++ ", ".intercalate ss).toList
      = operandText (g.tokens p.node) := by
    rw [← htokens]
    cases ss with
    | nil => rfl
    | cons s ss =>
        rw [operandText, if_neg (by simp), if_neg (by simp), String.toList_append,
          String.toList_intercalate]
        rfl
  refine ⟨_, by
    rw [renderNode?, node?, hp]
    simp only [Option.map_some, hname, hss, Option.bind_eq_bind, Option.bind_some, Option.pure_def]
    rfl, ?_⟩
  simp only [String.toList_append]
  have htext : "    ".toList ++ name.toList ++ " = ".toList ++ p.node.op.name.toList ++
      operandText (g.tokens p.node) = "    ".toList ++ g.nodeLine id := by
    rw [nodeLine, placedAt_eq hp, hnameChars]
    simp only [List.append_assoc]
    rfl
  obtain ⟨htrimmed, hwithin⟩ := h.nodeLine_spec hp
  have hline := Lined.line (a := "    ".toList) (by decide) (by decide) htrimmed hwithin
  rw [← htext, ← hoperands] at hline
  exact hline

theorem Legible.isBlockName (hb : b < g.blocks.size) : IsBlockName (g.nameOf b) := by
  have hblock : g.blocks[b]? = some g.blocks[b] := Array.getElem?_eq_getElem hb
  rw [nameOf, blockAt_eq hblock]
  exact h.names _ (Array.mem_of_getElem? hblock)

theorem Legible.isToken_successors (hb : b < g.blocks.size) :
    ∀ t ∈ (g.blockAt b).successors.map g.nameOf, IsToken t := by
  intro t ht
  obtain ⟨c, hc, rfl⟩ := List.mem_map.mp ht
  rw [blockAt_eq (Array.getElem?_eq_getElem hb)] at hc
  exact h.isToken_nameOf (h.successors _ (Array.getElem_mem hb) c hc)

/-- The lines around the nodes of a block fit on a line each. -/
theorem Legible.openingLine_spec (hb : b < g.blocks.size) :
    Trimmed (g.openingLine b) ∧ '\n' ∉ g.openingLine b := by
  have hname := h.isBlockName hb
  have hbrace : Trimmed ['\x7b'] := .of_all (by decide)
  refine ⟨hname.trimmed.around hbrace hname.ne_nil (List.cons_ne_nil _ _) [' '], ?_⟩
  simp [openingLine, hname.within]

theorem Legible.edgeLines_spec (hb : b < g.blocks.size) :
    ∀ l ∈ g.edgeLines b, Trimmed l ∧ '\n' ∉ l := by
  have hname := h.isBlockName hb
  intro l hl
  unfold edgeLines at hl
  dsimp only at hl
  split at hl
  · exact absurd hl List.not_mem_nil
  · rename_i hnil
    rw [List.mem_singleton.mp hl]
    obtain ⟨hne, htrimmed, hwithin⟩ := listed_spec (h.isToken_successors hb) hnil
    exact ⟨hname.trimmed.around htrimmed hname.ne_nil hne _, by simp [hname.within, hwithin]⟩

/-- The text after the nodes of a block names its successors, if there are any. -/
theorem Legible.lined_edges (hb : b < g.blocks.size) {names : List String}
    (hnames : names.map String.toList = (g.blockAt b).successors.map g.nameOf) :
    Lined (if names.isEmpty then "" else
      s!"  {(g.blockAt b).name} -> " ++ ", ".intercalate names ++ "\n").toList (g.edgeLines b) := by
  have hspec := h.edgeLines_spec hb
  unfold edgeLines at hspec ⊢
  rw [← hnames] at hspec ⊢
  cases names with
  | nil => exact .nil
  | cons s ss =>
      rw [if_neg (by simp)] at hspec ⊢
      rw [if_neg (by simp)]
      obtain ⟨htrimmed, hwithin⟩ := hspec _ (List.mem_singleton.mpr rfl)
      have hline := Lined.line (a := "  ".toList) (by decide) (by decide) htrimmed hwithin
      simp only [String.toList_append, String.toList_intercalate]
      have htext : "  ".toList ++ (g.nameOf b ++ ([' ', '-', '>', ' '] ++
          listed ((s :: ss).map String.toList))) = "  ".toList ++ (g.blockAt b).name.toList ++
            " -> ".toList ++ listed ((s :: ss).map String.toList) := by
        rw [nameOf]
        simp only [List.append_assoc]
        rfl
      rw [htext] at hline
      exact hline

theorem Legible.renderBlock?_eq (hb : b < g.blocks.size) :
    ∃ s, g.renderBlock? b = some s ∧ Lined s.toList (g.blockLines b) := by
  have hblock : g.blocks[b]? = some g.blocks[b] := Array.getElem?_eq_getElem hb
  have hmem := Array.mem_of_getElem? hblock
  have hblockAt := blockAt_eq hblock
  have hnode : ∀ id ∈ g.members b, ∃ s, g.renderNode? id = some s ∧ Lined s.toList [g.nodeLine id] := by
    intro id hid
    obtain ⟨n, hn⟩ := blockOf?_eq_some.mp (mem_members.mp hid)
    exact h.renderNode?_eq hn
  have htarget : ∀ c ∈ g.blocks[b].successors, ∃ s, g.blockName? c = some s ∧ s.toList = g.nameOf c := by
    intro c hc
    obtain ⟨block, hblock, -⟩ := h.successors _ hmem c hc
    exact blockName?_eq hblock
  obtain ⟨nodes, hnodes, hnodeLines⟩ := mapM_lined hnode
  rw [← List.map_eq_flatMap] at hnodeLines
  obtain ⟨names, hnames, htargets⟩ := mapM_toList htarget
  have hopening : Lined ("  ".toList ++ g.nameOf b ++ " \x7b\n".toList) [g.openingLine b] := by
    obtain ⟨htrimmed, hwithin⟩ := h.openingLine_spec hb
    have hline := Lined.line (a := "  ".toList) (by decide) (by decide) htrimmed hwithin
    rwa [openingLine, ← List.append_assoc, List.append_assoc] at hline
  have hclosing : Lined ("  ".toList ++ ['\x7d'] ++ ['\n']) [['\x7d']] :=
    .line (by decide) (by decide) (.of_all (by decide)) (by decide)
  have hedges := h.lined_edges hb (htargets.trans (by rw [hblockAt]))
  rw [hblockAt] at hedges
  refine ⟨_, by
    rw [renderBlock?, block?, hblock]
    simp only [hnodes, hnames, Option.bind_eq_bind, Option.bind_some, Option.pure_def]
    rfl, ?_⟩
  have hall := ((hopening.append hnodeLines).append hclosing).append hedges
  have hlines : [g.openingLine b] ++ (g.members b).map g.nodeLine ++ [['\x7d']] ++ g.edgeLines b
      = g.blockLines b := by simp [blockLines]
  rw [hlines, nameOf, hblockAt] at hall
  simp only [String.toList_append] at hall ⊢
  exact hall

/-- A graph that can be written has a text, with lines for its blocks, nodes and edges. -/
theorem Legible.render?_eq : ∃ s, g.render? = some s ∧ Lined s.toList g.textLines := by
  have hblock : ∀ b ∈ List.range g.blocks.size,
      ∃ s, g.renderBlock? b = some s ∧ Lined s.toList (g.blockLines b) :=
    fun b hb => h.renderBlock?_eq (List.mem_range.mp hb)
  obtain ⟨blocks, hblocks, hlines⟩ := mapM_lined hblock
  have hkeyword : Trimmed (Draft.keyword ++ ([' '] ++ ['\x7b'])) :=
    Trimmed.around (.of_all (by decide)) (.of_all (by decide)) (by decide) (by decide) [' ']
  have hopening : Lined ([] ++ "pipeline \x7b".toList ++ ['\n']) ["pipeline \x7b".toList] :=
    .line rfl (by decide) hkeyword (by decide)
  have hclosing : Lined ([] ++ ['\x7d'] ++ ['\n']) [['\x7d']] :=
    .line rfl (by decide) (.of_all (by decide)) (by decide)
  refine ⟨_, by
    rw [render?]
    simp only [hblocks, Option.bind_eq_bind, Option.bind_some, Option.pure_def]
    rfl, ?_⟩
  rw [String.toList_append, String.toList_append, textLines]
  exact (hopening.append hlines).append hclosing

end

end Graph

end Isel
