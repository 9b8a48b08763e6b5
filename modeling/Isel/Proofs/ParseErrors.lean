import Isel.Graph.Parser
import Isel.Proofs.Pieces

/-! Where complaints about a text point. Every piece that reading makes is a stretch of the piece it is
made from, at its place there, and pieces of lines stay within their lines. So a complaint covers a
stretch of one line of the text, and the line it is reported for is the one that holds the stretch. -/

namespace Isel

open Text

namespace Text

variable {a b cs : List Char} {c : Char}

/-! ### Bytes -/

theorem byteLength_cons (c : Char) (cs : List Char) :
    byteLength (c :: cs) = c.utf8Size + byteLength cs := by
  simp [byteLength]

theorem byteLength_append (a b : List Char) : byteLength (a ++ b) = byteLength a + byteLength b := by
  induction a with
  | nil => simp [byteLength]
  | cons c a ih => rw [List.cons_append, byteLength_cons, byteLength_cons, ih, Nat.add_assoc]

theorem byteLength_eq (cs : List Char) : byteLength cs = (String.ofList cs).utf8ByteSize := by
  induction cs with
  | nil => rfl
  | cons c cs ih =>
      rw [byteLength_cons, ih, String.ofList_cons, String.utf8ByteSize_append,
        String.utf8ByteSize_singleton]

/-- A text is split after the bytes of its front. -/
theorem splitAtByte_append (a b : List Char) : splitAtByte (byteLength a) (a ++ b) = some (a, b) := by
  induction a with
  | nil => cases b <;> rfl
  | cons c a ih =>
      obtain ⟨n, hn⟩ := Nat.exists_eq_succ_of_ne_zero (Nat.pos_iff_ne_zero.mp c.utf8Size_pos)
      have hlength : byteLength (c :: a) = n + byteLength a + 1 := by
        rw [byteLength_cons, hn]
        omega
      have hrest : n + byteLength a + 1 - c.utf8Size = byteLength a := by omega
      rw [hlength, List.cons_append, splitAtByte, if_pos (by omega), hrest, ih, Option.map_some]

/-! ### Places -/

namespace Piece

variable {p q r : Piece}

/-- A stretch of another piece, at its place there. -/
def Within (p q : Piece) : Prop :=
  ∃ a b, q.chars = a ++ (p.chars ++ b) ∧ p.start = q.start + byteLength a

theorem Within.trans (h : p.Within q) (h' : q.Within r) : p.Within r := by
  obtain ⟨a, b, hchars, hstart⟩ := h
  obtain ⟨a', b', hchars', hstart'⟩ := h'
  refine ⟨a' ++ a, b ++ b', ?_, ?_⟩
  · rw [hchars', hchars]
    simp only [List.append_assoc]
  · rw [hstart, hstart', byteLength_append, Nat.add_assoc]

theorem Within.subset (h : p.Within q) : p.chars ⊆ q.chars := by
  obtain ⟨a, b, hchars, -⟩ := h
  rw [hchars]
  exact fun c hc => List.mem_append_right a (List.mem_append_left b hc)

/-- The front of a piece is within it. -/
theorem Within.front (h : q.chars = cs ++ b) : Within ⟨q.start, cs⟩ q := ⟨[], b, h, rfl⟩

/-- The end of a piece is within it. -/
theorem Within.back (h : q.chars = a ++ cs) : Within ⟨q.start + byteLength a, cs⟩ q :=
  ⟨a, [], by rw [h, List.append_nil], rfl⟩

theorem within_tail (p : Piece) : p.tail.Within p := .back (List.append_nil _).symm

theorem within_trimRight (p : Piece) : p.trimRight.Within p := by
  refine .front (b := (p.chars.reverse.takeWhile isBlank).reverse) ?_
  rw [← List.reverse_append, List.takeWhile_append_dropWhile, List.reverse_reverse]

theorem within_trimLeft (p : Piece) : p.trimLeft.Within p := .back List.takeWhile_append_dropWhile.symm

theorem within_trim (p : Piece) : p.trim.Within p := (within_trimLeft _).trans (within_trimRight p)

theorem within_afterFirst? (h : q.afterFirst? c = some p) : p.Within q := by
  unfold afterFirst? at h
  split at h
  · exact absurd h (by simp)
  · rename_i d rest hchars
    split at h
    · obtain rfl := Option.some.inj h
      exact Within.back (a := [d]) hchars
    · exact absurd h (by simp)

theorem within_cut? {separator : List Char} (h : q.cut? separator = some (p, r)) :
    p.Within q ∧ r.Within q := by
  obtain ⟨⟨before, after⟩, hcut, heq⟩ := Option.map_eq_some_iff.mp h
  obtain ⟨rfl, rfl⟩ := Prod.mk.inj heq
  have hchars := eq_append_of_cutChars hcut
  refine ⟨.front hchars, ?_⟩
  rw [← List.append_assoc] at hchars
  rw [Nat.add_assoc, ← byteLength_append]
  exact .back hchars

theorem within_cutBlank? (h : q.cutBlank? = some (p, r)) : p.Within q ∧ r.Within q := by
  unfold cutBlank? at h
  split at h
  · exact absurd h (by simp)
  · rename_i blank after hdrop
    obtain ⟨rfl, rfl⟩ := Prod.mk.inj (Option.some.inj h)
    have hchars : q.chars = q.chars.takeWhile (!isBlank ·) ++ ([blank] ++ after) := by
      rw [List.singleton_append, ← hdrop, List.takeWhile_append_dropWhile]
    refine ⟨.front hchars, ?_⟩
    have hblank : byteLength [blank] = blank.utf8Size := by simp [byteLength]
    rw [← List.append_assoc] at hchars
    rw [Nat.add_assoc, ← hblank, ← byteLength_append]
    exact .back hchars

/-- The first part of a split is a front, and the others lie behind it. -/
theorem within_splitChars (separator : Char) (start : Nat) (cs : List Char) :
    (∃ rest, (splitChars separator start cs).1.start = start ∧
      cs = (splitChars separator start cs).1.chars ++ rest) ∧
    ∀ q ∈ (splitChars separator start cs).2, q.Within ⟨start, cs⟩ := by
  induction cs generalizing start with
  | nil => exact ⟨⟨[], rfl, rfl⟩, by simp [splitChars]⟩
  | cons c cs ih =>
      obtain ⟨⟨rest, hstart, hchars⟩, hothers⟩ := ih (start + c.utf8Size)
      have hback : Within ⟨start + c.utf8Size, cs⟩ ⟨start, c :: cs⟩ :=
        Within.back (q := ⟨start, c :: cs⟩) (a := [c]) rfl
      rw [splitChars]
      generalize splitChars separator (start + c.utf8Size) cs = parts at hstart hchars hothers ⊢
      obtain ⟨first, others⟩ := parts
      dsimp only at hstart hchars hothers ⊢
      by_cases hc : c = separator
      · rw [if_pos hc]
        refine ⟨⟨c :: cs, rfl, rfl⟩, fun q hq => ?_⟩
        rcases List.mem_cons.mp hq with rfl | hq
        · exact Within.trans ⟨[], rest, hchars, hstart⟩ hback
        · exact (hothers q hq).trans hback
      · rw [if_neg hc]
        refine ⟨⟨rest, rfl, ?_⟩, fun q hq => (hothers q hq).trans hback⟩
        rw [List.cons_append, ← hchars]

theorem within_of_mem_split (h : q ∈ p.split c) : q.Within p := by
  obtain ⟨⟨rest, hstart, hchars⟩, hothers⟩ := within_splitChars c p.start p.chars
  rcases List.mem_cons.mp h with rfl | hq
  · exact ⟨[], rest, hchars, hstart⟩
  · exact hothers q hq

theorem within_of_mem_parts (h : q ∈ (p.split c).map trim) : q.Within p := by
  obtain ⟨r, hr, rfl⟩ := List.mem_map.mp h
  exact (within_trim r).trans (within_of_mem_split hr)

/-- A stretch of one line of a text. -/
structure OnLine (text p : Piece) : Prop where
  within : p.Within text
  one_line : '\n' ∉ p.chars

theorem OnLine.sub {text : Piece} (h : OnLine text q) (hp : p.Within q) : OnLine text p :=
  ⟨hp.trans h.within, fun hmem => h.one_line (hp.subset hmem)⟩

theorem onLine_tail (p : Piece) : OnLine p p.tail := ⟨within_tail p, List.not_mem_nil⟩

theorem onLine_of_mem_lines (h : q ∈ p.lines) : OnLine p q :=
  ⟨within_of_mem_parts (List.mem_filter.mp h).1, not_mem_of_mem_lines h⟩

/-- A line that is read holds something, and no blanks around it. -/
theorem of_mem_lines (h : q ∈ p.lines) : q.chars ≠ [] ∧ Trimmed q.chars := by
  obtain ⟨hmem, hne⟩ := List.mem_filter.mp h
  obtain ⟨r, -, rfl⟩ := List.mem_map.mp hmem
  exact ⟨by simpa [isEmpty] using hne, trimmed_strip _⟩

end Piece

end Text

/-! ### Complaints -/

/-- A computation fails with something of one kind, or gives something of another. -/
def Yields {ε α : Type} (fails : ε → Prop) (gives : α → Prop) : Except ε α → Prop
  | .error e => fails e
  | .ok a => gives a

namespace Yields

variable {ε α β : Type} {P : ε → Prop} {Q : α → Prop} {R : β → Prop}

theorem bind {x : Except ε α} {f : α → Except ε β} (hx : Yields P Q x)
    (hf : ∀ a, Q a → Yields P R (f a)) : Yields P R (x >>= f) := by
  cases x with
  | error e => exact hx
  | ok a => exact hf a hx

theorem foldlM {step : β → α → Except ε β} {xs : List α}
    (hstep : ∀ b, R b → ∀ a ∈ xs, Yields P R (step b a)) {b : β} (hb : R b) :
    Yields P R (xs.foldlM step b) := by
  induction xs generalizing b with
  | nil => exact hb
  | cons a xs ih =>
      rw [List.foldlM_cons]
      refine (hstep b hb a List.mem_cons_self).bind fun b' hb' => ih (fun c hc a' ha' => ?_) hb'
      exact hstep c hc a' (List.mem_cons_of_mem a ha')

theorem mapM {f : α → Except ε β} {xs : List α} (hf : ∀ a ∈ xs, Yields P R (f a)) :
    Yields P (fun ys => ∀ y ∈ ys, R y) (xs.mapM f) := by
  induction xs with
  | nil => exact fun y hy => absurd hy List.not_mem_nil
  | cons a xs ih =>
      rw [List.mapM_cons]
      refine (hf a List.mem_cons_self).bind fun y hy => ?_
      refine (ih fun a' ha' => hf a' (List.mem_cons_of_mem a ha')).bind fun ys hys => ?_
      exact List.forall_mem_cons.mpr ⟨hy, hys⟩

end Yields

namespace Draft

/-- Messages about a whole line. -/
def lineMessages : List String :=
  ["expected `pipeline \x7b`", "expected a block", "invalid or duplicate block name",
    "expected `<name> = <opcode>`", "invalid or duplicate node name", "trailing input after pipeline"]

/-- Messages about a name that nothing has. -/
def nameMessages : List String :=
  ["unknown block", "unknown control dependency", "unknown successor block"]

/-- What a message says of the text it points at. -/
inductive Blames : String → String → Prop
  | opcode {word : String} (h : Operator.ofName? word = none) : Blames s!"unknown opcode `{word}`" word
  | value {word : String} (h : Literal.read? word.toList = none) : Blames s!"unknown value `{word}`" word
  | line {message line : String} (hmessage : message ∈ lineMessages) (hne : line ≠ "")
      (htrimmed : Trimmed line.toList) : Blames message line
  | name {message name : String} (hmessage : message ∈ nameMessages) : Blames message name
  | missing : Blames "unterminated pipeline" ""

/-- A complaint about a stretch of one line of a text. -/
def Points (text : Piece) (c : Complaint) : Prop :=
  ∃ p : Piece, Piece.OnLine text p ∧ c.span = p.span ∧ Blames c.message p.text

/-- Whatever is still to be looked up is a stretch of one line. -/
structure Anchored (text : Piece) (d : Draft) : Prop where
  operands : ∀ line ∈ d.lines, ∀ t ∈ line.operands, Piece.OnLine text t
  targets : ∀ e ∈ d.edges, Piece.OnLine text e.2

variable {text line : Piece} {d : Draft} {b : Nat}

theorem points_complain {α : Type} {Q : α → Prop} {message : String} {p : Piece}
    (hp : Piece.OnLine text p) (h : Blames message p.text) :
    Yields (Points text) Q (complain message p) :=
  ⟨p, hp, rfl, h⟩

section Lines

variable (hline : Piece.OnLine text line) (hne : line.chars ≠ []) (htrimmed : Trimmed line.chars)

include hline hne htrimmed

theorem points_line {α : Type} {Q : α → Prop} {message : String} (h : message ∈ lineMessages) :
    Yields (Points text) Q (complain message line) := by
  refine points_complain hline (.line h ?_ ?_)
  · rwa [Piece.text, ne_eq, String.ofList_eq_empty_iff]
  · rwa [Piece.text, String.toList_ofList]

theorem readNode_yields (hd : d.Anchored text) :
    Yields (Points text) (Anchored text) (d.readNode b line) := by
  have hpush {name : List Char} {op : Operator} {operands : Piece} (hoperands : operands.Within line) :
      Anchored text { d with lines := d.lines.push ⟨b, name, op,
        if operands.isEmpty then [] else (operands.split ',').map Piece.trim⟩ } := by
    refine ⟨fun l hl t ht => ?_, hd.targets⟩
    rcases Array.mem_push.mp hl with hl | rfl
    · exact hd.operands l hl t ht
    · dsimp only at ht
      split at ht
      · exact absurd ht List.not_mem_nil
      · exact hline.sub ((Piece.within_of_mem_parts ht).trans hoperands)
  unfold readNode
  split
  · exact points_line hline hne htrimmed (by decide)
  · rename_i name rest hcut
    have hrest := (Piece.within_trim rest).trans (Piece.within_cut? hcut).2
    dsimp only
    split
    · exact points_line hline hne htrimmed (by decide)
    · cases hblank : rest.trim.cutBlank? with
      | some parts =>
          obtain ⟨opcode, operands⟩ := parts
          obtain ⟨hopcode, hoperands⟩ := Piece.within_cutBlank? hblank
          dsimp only
          split
          · rename_i hnone
            exact points_complain (hline.sub (hopcode.trans hrest)) (.opcode hnone)
          · exact hpush ((Piece.within_trim operands).trans (hoperands.trans hrest))
      | none =>
          dsimp only
          split
          · rename_i hnone
            exact points_complain (hline.sub hrest) (.opcode hnone)
          · exact hpush ((Piece.within_tail rest.trim).trans hrest)

theorem readOuter_yields (hd : d.Anchored text) :
    Yields (Points text) (fun r => Anchored text r.2) (d.readOuter line) := by
  unfold readOuter
  split
  · exact hd
  · split
    · rename_i source targets hcut
      obtain ⟨hsource, htargets⟩ := Piece.within_cut? hcut
      dsimp only
      split
      · exact points_complain (hline.sub ((Piece.within_trim source).trans hsource)) (.name (by decide))
      · refine ⟨hd.operands, fun e he => ?_⟩
        rcases Array.mem_append.mp he with he | he
        · exact hd.targets e he
        · obtain ⟨t, ht, rfl⟩ := List.mem_map.mp (List.mem_toArray.mp he)
          exact hline.sub ((Piece.within_trim t).trans ((Piece.within_of_mem_split ht).trans htargets))
    · split
      · exact points_line hline hne htrimmed (by decide)
      · split
        · exact points_line hline hne htrimmed (by decide)
        · exact ⟨hd.operands, hd.targets⟩

theorem readLine_yields {s : Scope} (hd : d.Anchored text) :
    Yields (Points text) (fun r => Anchored text r.2) (readLine (s, d) line) := by
  cases s with
  | start =>
      rw [readLine]
      split
      · exact hd
      · exact points_line hline hne htrimmed (by decide)
  | pipeline => exact readOuter_yields hline hne htrimmed hd
  | block b =>
      rw [readLine]
      split
      · exact hd
      · have hread := readNode_yields hline hne htrimmed (b := b) hd
        cases hnode : d.readNode b line with
        | error c => rwa [hnode] at hread
        | ok d' => rwa [hnode] at hread
  | done => exact points_line hline hne htrimmed (by decide)

end Lines

theorem read_yields (text : Piece) : Yields (Points text) (Anchored text) (read text) := by
  have hstart : Anchored text {} := ⟨by simp, by simp⟩
  refine Yields.bind (Q := fun r => Anchored text r.2) ?_ fun r hr => ?_
  · refine Yields.foldlM (fun r hr line hline => ?_) hstart
    obtain ⟨hne, htrimmed⟩ := Piece.of_mem_lines hline
    exact readLine_yields (Piece.onLine_of_mem_lines hline) hne htrimmed hr
  · dsimp only
    split
    · exact hr
    · exact points_complain (Piece.onLine_tail text) .missing

/-! ### Names -/

theorem control_yields {name : Piece} (h : Piece.OnLine text name) :
    Yields (Points text) (fun _ => True) (d.control name) := by
  unfold control
  split
  · trivial
  · split
    · trivial
    · exact points_complain h (.name (by decide))

theorem addOperand_yields {n : Node} {token : Piece} (h : Piece.OnLine text token) :
    Yields (Points text) (fun _ => True) (d.addOperand n token) := by
  unfold addOperand
  split
  · rename_i name hname
    exact (control_yields (h.sub (Piece.within_afterFirst? hname))).bind fun _ _ => trivial
  · split
    · trivial
    · split
      · trivial
      · rename_i hnone
        refine points_complain h (.value ?_)
        rwa [Piece.text, String.toList_ofList]

theorem toGraph_yields (hd : d.Anchored text) :
    Yields (Points text) (fun _ => True) d.toGraph := by
  refine Yields.bind (Yields.mapM (R := fun _ => True) fun line hline => ?_) fun _ _ => ?_
  · have hoperands := hd.operands line (Array.mem_toList_iff.mp hline)
    refine Yields.bind (Q := fun _ => True) ?_ fun _ _ => trivial
    exact Yields.foldlM (fun _ _ t ht => addOperand_yields (hoperands t ht)) trivial
  · refine Yields.bind (Yields.mapM (R := fun _ => True) fun e he => ?_) fun _ _ => trivial
    obtain ⟨source, target⟩ := e
    have htarget := hd.targets _ (Array.mem_toList_iff.mp he)
    rw [edge]
    split
    · trivial
    · exact points_complain htarget (.name (by decide))

end Draft

namespace Graph

/-- A complaint about a text is reported for the line that holds the stretch it points at. -/
theorem points_inText {text : String} {c : Complaint} (hsize : text.utf8ByteSize < 2 ^ 32)
    (h : Draft.Points (.ofString text) c) :
    ∃ (line : Nat) (before covered after : String),
      Error.inText c.message text c.span = .parse c.message line c.span ∧
      text = before ++ covered ++ after ∧ c.span.start.toNat = before.utf8ByteSize ∧
      c.span.stop.toNat = (before ++ covered).utf8ByteSize ∧ '\n' ∉ covered.toList ∧
      line = 1 + before.toList.count '\n' ∧ Draft.Blames c.message covered := by
  obtain ⟨p, ⟨⟨a, b, hchars, hstart⟩, hone⟩, hspan, hblames⟩ := h
  have hchars : text.toList = a ++ (p.chars ++ b) := hchars
  have hstart : p.start = byteLength a := hstart.trans (Nat.zero_add _)
  have htext : text = String.ofList a ++ p.text ++ String.ofList b := by
    rw [← String.toList_inj, hchars]
    simp [Piece.text]
  have hbefore : (String.ofList a ++ p.text).utf8ByteSize = byteLength a + byteLength p.chars := by
    rw [String.utf8ByteSize_append, ← byteLength_eq, Piece.text, ← byteLength_eq]
  have hfits : byteLength a + byteLength p.chars < 2 ^ 32 := by
    rw [← hbefore]
    rw [htext, String.utf8ByteSize_append] at hsize
    omega
  have hfirst : c.span.start.toNat = byteLength a := by
    rw [hspan, Piece.span, Span.ofOffsets, hstart]
    exact UInt32.toNat_ofNat_of_lt (Nat.lt_of_le_of_lt (Nat.le_add_right _ _) hfits)
  have hline : c.span.line text = 1 + a.count '\n' := by
    rw [Span.line, Span.lineColumn, hfirst, hchars, splitAtByte_append]
  refine ⟨_, String.ofList a, p.text, String.ofList b, rfl, htext, ?_, ?_, ?_, ?_, hblames⟩
  · rw [hfirst, byteLength_eq]
  · rw [hbefore, hspan, Piece.span, Span.ofOffsets, hstart]
    exact UInt32.toNat_ofNat_of_lt hfits
  · rwa [Piece.text, String.toList_ofList]
  · rw [hline, String.toList_ofList]

/-- Parse errors point at one place in the text: a text that is rejected, and that is shorter than `2 ^ 32`
bytes, falls into a front, a covered stretch within one line and a rest. The span of the error is where the
stretch is, its line is one plus the line ends in front, and its message is about the stretch. -/
theorem parse_error_located {text : String} {e : Error} (hsize : text.utf8ByteSize < 2 ^ 32)
    (h : parse text = .error e) :
    ∃ (message : String) (line : Nat) (span : Span) (before covered after : String),
      e = .parse message line span ∧ text = before ++ covered ++ after ∧
      span.start.toNat = before.utf8ByteSize ∧ span.stop.toNat = (before ++ covered).utf8ByteSize ∧
      span.start ≤ span.stop ∧ span.stop.toNat ≤ text.utf8ByteSize ∧ '\n' ∉ covered.toList ∧
      line = 1 + before.toList.count '\n' ∧ Draft.Blames message covered := by
  have hyields := (Draft.read_yields (Piece.ofString text)).bind fun d hd => Draft.toGraph_yields hd
  unfold parse at h
  split at h
  · exact absurd h (by simp)
  · rename_i c hc
    rw [hc] at hyields
    obtain ⟨line, before, covered, after, herror, htext, hstart, hstop, hone, hline, hblames⟩ :=
      points_inText hsize hyields
    refine ⟨c.message, line, c.span, before, covered, after, ?_, htext, hstart, hstop, ?_, ?_, hone,
      hline, hblames⟩
    · rw [← Except.error.inj h, herror]
    · rw [UInt32.le_iff_toNat_le, hstart, hstop, String.utf8ByteSize_append]
      exact Nat.le_add_right _ _
    · rw [hstop, htext, String.utf8ByteSize_append (t := after)]
      exact Nat.le_add_right _ _

/-- A text with blanks of several bytes, a line end of two characters and an operand that is missing. -/
def spaced : String :=
  "pipeline \x7b\r\n\u3000größe \x7b\n\tx = state\n\ty =\u2003i64.ret ^größe, \u00a0, x\n \x7d\n\x7d"

theorem parse_error_located_spaced : spaced.utf8ByteSize < 2 ^ 32 ∧
    parse spaced = .error (.parse "unknown value ``" 4 ⟨60, 60⟩) ∧
    ∃ before after : String, spaced = before ++ after ∧ before.utf8ByteSize = 60 ∧
      before.toList.count '\n' = 3 := by
  have hsize : spaced.utf8ByteSize < 2 ^ 32 := by decide +kernel
  have hparse : parse spaced = .error (.parse "unknown value ``" 4 ⟨60, 60⟩) := by decide +kernel
  obtain ⟨message, line, span, before, covered, after, herror, htext, hstart, hstop, -, -, -, hline, -⟩ :=
    parse_error_located hsize hparse
  obtain ⟨rfl, rfl, rfl⟩ := Error.parse.inj herror
  have hbefore : before.utf8ByteSize = 60 := hstart.symm
  refine ⟨hsize, hparse, before, covered ++ after, ?_, hbefore, by omega⟩
  rw [htext, String.append_assoc]

end Graph

end Isel
