import Isel.Emission
import Isel.Machine.Run
import Isel.Proofs.Layout
import Isel.Proofs.Registers

/-! Where the instructions of a node lie in the code, and how a run goes through them. In a graph
whose edges go forward every jump goes forward, so a run never executes more instructions than the
code has. -/

namespace Isel

/-- A stretch of code lies at a position. -/
def Code.At (c : Code) (p : Nat) (is : List Inst) : Prop :=
  ∀ k i, is[k]? = some i → c.insts[p + k]? = some i

namespace Code.At

variable {c : Code} {p : Nat} {i : Inst} {is js : List Inst}

theorem head (h : c.At p (i :: is)) : c.insts[p]? = some i := h 0 i rfl

theorem tail (h : c.At p (i :: is)) : c.At (p + 1) is := by
  intro k j hj
  rw [Nat.add_assoc, Nat.add_comm 1 k]
  exact h (k + 1) j hj

theorem left (h : c.At p (is ++ js)) : c.At p is := by
  intro k i hi
  refine h k i ?_
  rw [List.getElem?_append_left (List.getElem?_eq_some_iff.mp hi).1]
  exact hi

theorem right (h : c.At p (is ++ js)) : c.At (p + is.length) js := by
  intro k i hi
  rw [Nat.add_assoc]
  refine h (is.length + k) i ?_
  rw [List.getElem?_append_right (Nat.le_add_right _ _), Nat.add_sub_cancel_left]
  exact hi

theorem end_le (h : c.At p is) (hne : is ≠ []) : p + is.length ≤ c.insts.size := by
  have hpos := List.length_pos_iff.mpr hne
  have hlast := List.getElem?_eq_getElem (show is.length - 1 < is.length by omega)
  have hlt := (Array.getElem?_eq_some_iff.mp (h _ _ hlast)).1
  omega

end Code.At

namespace Machine

variable {c : Code} {p fuel l t : Nat} {i : Inst} {is : List Inst} {m m' : Machine}

theorem runFrom_zero (hi : c.insts[p]? = some i) : runFrom c 0 p m = (.error .stepLimit, m) := by
  rw [runFrom, hi]
  rfl

theorem runFrom_next (hi : c.insts[p]? = some i) (hstep : step i m = (.ok .next, m')) :
    runFrom c (fuel + 1) p m = runFrom c fuel (p + 1) m' := by
  rw [runFrom, hi]
  exact Exec.bind_ok hstep

theorem runFrom_jump (hi : c.insts[p]? = some i) (hstep : step i m = (.ok (.jump l), m'))
    (ht : c.offset? l = some t) : runFrom c (fuel + 1) p m = runFrom c fuel t m' := by
  rw [runFrom, hi]
  refine (Exec.bind_ok hstep).trans ?_
  simp only [ht]

theorem runFrom_halt (hi : c.insts[p]? = some i) (hstep : step i m = (.ok .halt, m')) :
    runFrom c (fuel + 1) p m = (.ok (), m') := by
  rw [runFrom, hi]
  exact Exec.bind_ok hstep

theorem runFrom_error {trap : Trap} (hi : c.insts[p]? = some i)
    (hstep : step i m = (.error trap, m')) : runFrom c (fuel + 1) p m = (.error trap, m') := by
  rw [runFrom, hi]
  exact Exec.bind_error hstep

theorem exec_cons_next (hstep : step i m = (.ok .next, m')) : exec (i :: is) m = exec is m' :=
  Exec.bind_ok hstep

theorem exec_cons_jump (hstep : step i m = (.ok (.jump l), m')) :
    exec (i :: is) m = (.ok (.jump l), m') := Exec.bind_ok hstep

theorem exec_cons_halt (hstep : step i m = (.ok .halt, m')) : exec (i :: is) m = (.ok .halt, m') :=
  Exec.bind_ok hstep

theorem exec_cons_error {trap : Trap} (hstep : step i m = (.error trap, m')) :
    exec (i :: is) m = (.error trap, m') := Exec.bind_error hstep

theorem exec_append {js : List Inst} (h : exec is m = (.ok .next, m')) :
    exec (is ++ js) m = exec js m' := by
  induction is generalizing m with
  | nil =>
      obtain rfl := congrArg Prod.snd h
      rfl
  | cons i is ih =>
      cases hstep : step i m with
      | mk result m₁ =>
          rcases result with t | (_ | l | _)
          · rw [exec_cons_error hstep] at h
            exact absurd (congrArg Prod.fst h) (by simp)
          · rw [exec_cons_next hstep] at h
            rw [List.cons_append, exec_cons_next hstep]
            exact ih h
          · rw [exec_cons_jump hstep] at h
            exact absurd (congrArg Prod.fst h) (by simp)
          · rw [exec_cons_halt hstep] at h
            exact absurd (congrArg Prod.fst h) (by simp)

/-- How a run goes through a stretch of code: it is stopped within it, goes on behind it, jumps out
of it, returns or traps. -/
inductive Passes (c : Code) (p fuel : Nat) (is : List Inst) (m : Machine) : Prop
  | stopped {k : Nat} {m' : Machine} (hfuel : fuel < is.length)
      (hexec : exec (is.take k) m = (.ok .next, m'))
      (hrun : runFrom c fuel p m = (.error .stepLimit, m'))
  | next {m' : Machine} (hfuel : is.length ≤ fuel) (hexec : exec is m = (.ok .next, m'))
      (hrun : runFrom c fuel p m = runFrom c (fuel - is.length) (p + is.length) m')
  | jump {l fuel' : Nat} {m' : Machine} (hfuel : fuel ≤ fuel' + is.length)
      (hexec : exec is m = (.ok (.jump l), m'))
      (hrun : ∀ t, c.offset? l = some t → runFrom c fuel p m = runFrom c fuel' t m')
  | halt {m' : Machine} (hexec : exec is m = (.ok .halt, m'))
      (hrun : runFrom c fuel p m = (.ok (), m'))
  | error {trap : Trap} {m' : Machine} (hexec : exec is m = (.error trap, m'))
      (hrun : runFrom c fuel p m = (.error trap, m'))

theorem passes (hat : c.At p is) (fuel : Nat) (m : Machine) : Passes c p fuel is m := by
  induction is generalizing p fuel m with
  | nil => exact .next (Nat.zero_le fuel) rfl (by simp)
  | cons i is ih =>
      have hi := hat.head
      cases fuel with
      | zero => exact .stopped (k := 0) (Nat.zero_lt_succ _) rfl (runFrom_zero hi)
      | succ fuel =>
          cases hstep : step i m with
          | mk result m' =>
              cases result with
              | error trap => exact .error (exec_cons_error hstep) (runFrom_error hi hstep)
              | ok flow =>
                  cases flow with
                  | halt => exact .halt (exec_cons_halt hstep) (runFrom_halt hi hstep)
                  | jump l =>
                      refine .jump ?_ (exec_cons_jump hstep) fun t ht =>
                        runFrom_jump hi hstep ht
                      rw [List.length_cons]
                      omega
                  | next =>
                      have hrun : runFrom c (fuel + 1) p m = runFrom c fuel (p + 1) m' :=
                        runFrom_next hi hstep
                      have hexec : exec (i :: is) m = exec is m' := exec_cons_next hstep
                      cases ih hat.tail fuel m' with
                      | @stopped k m'' hfuel hexec' hrun' =>
                          refine .stopped (k := k + 1) (Nat.succ_lt_succ hfuel) ?_ (hrun.trans hrun')
                          rw [List.take_succ_cons, exec_cons_next hstep]
                          exact hexec'
                      | @next m'' hfuel hexec' hrun' =>
                          refine .next (Nat.succ_le_succ hfuel) (hexec.trans hexec') ?_
                          rw [hrun, hrun', List.length_cons, Nat.add_sub_add_right, Nat.add_assoc,
                            Nat.add_comm 1]
                      | @jump l fuel' m'' hfuel hexec' hrun' =>
                          refine .jump ?_ (hexec.trans hexec') fun t ht =>
                            hrun.trans (hrun' t ht)
                          rw [List.length_cons]
                          omega
                      | halt hexec' hrun' => exact .halt (hexec.trans hexec') (hrun.trans hrun')
                      | error hexec' hrun' => exact .error (hexec.trans hexec') (hrun.trans hrun')

end Machine

namespace Emission

variable {parts : List (List Inst)} {b : Nat}

/-- The position at which a block starts. -/
def start (parts : List (List Inst)) (b : Nat) : Nat := (parts.take b).flatten.length

theorem start_succ {is : List Inst} (hb : parts[b]? = some is) :
    start parts (b + 1) = start parts b + is.length := by
  rw [start, start, List.take_add_one, hb]
  simp

theorem start_le (parts : List (List Inst)) (b : Nat) : start parts b ≤ parts.flatten.length := by
  conv => rhs; rw [← List.take_append_drop b parts, List.flatten_append, List.length_append]
  exact Nat.le_add_right _ _

theorem start_mono {c : Nat} (h : b ≤ c) : start parts b ≤ start parts c := by
  have hle := start_le (parts.take c) b
  rw [start, List.take_take, Nat.min_eq_left h] at hle
  exact hle

theorem link_insts (parts : List (List Inst)) :
    ∃ tail, (link parts).insts = (parts.flatten ++ tail).toArray := by
  unfold link
  dsimp only
  split
  · exact ⟨[.ud2], rfl⟩
  · exact ⟨[], by rw [List.append_nil]⟩

theorem link_at {is : List Inst} (hb : parts[b]? = some is) : (link parts).At (start parts b) is := by
  obtain ⟨tail, hinsts⟩ := link_insts parts
  have hsplit : parts.flatten = (parts.take b).flatten ++ (is ++ (parts.drop (b + 1)).flatten) := by
    have hlt := (List.getElem?_eq_some_iff.mp hb).1
    conv => lhs; rw [← List.take_append_drop b parts, List.drop_eq_getElem_cons hlt]
    rw [List.flatten_append, List.flatten_cons, (List.getElem?_eq_some_iff.mp hb).2]
  intro k i hi
  have hk := (List.getElem?_eq_some_iff.mp hi).1
  rw [hinsts, List.getElem?_toArray, hsplit, List.append_assoc, start,
    List.getElem?_append_right (Nat.le_add_right _ _), Nat.add_sub_cancel_left, List.append_assoc,
    List.getElem?_append_left hk]
  exact hi

theorem starts_getElem? (hb : b < parts.length) : (starts parts)[b]? = some (start parts b) := by
  rw [starts, List.getElem?_map, List.getElem?_range hb, Option.map_some, start, List.length_flatten]

theorem link_offset? (hb : b < parts.length) : (link parts).offset? b = some (start parts b) := by
  have hget : ∀ last, ((starts parts).map some ++ [last]).toArray[b]? = some (some (start parts b)) := by
    intro last
    have hlen : b < ((starts parts).map some).length := by simpa [starts] using hb
    rw [List.getElem?_toArray, List.getElem?_append_left hlen, List.getElem?_map, starts_getElem? hb]
    rfl
  unfold link Code.offset?
  dsimp only
  split
  all_goals
    rw [hget]
    rfl

/-- A jump to the trap leads to an instruction that traps. -/
theorem link_trap {i : Inst} (hi : i ∈ parts.flatten) (hmentions : i.mentions parts.length = true) :
    (link parts).offset? parts.length = some parts.flatten.length ∧
      (link parts).insts[parts.flatten.length]? = some .ud2 := by
  have hany : parts.flatten.any (·.mentions parts.length) = true :=
    List.any_eq_true.mpr ⟨i, hi, hmentions⟩
  have hlen : ((starts parts).map some).length = parts.length := by simp [starts]
  simp only [link, hany, if_true, Code.offset?]
  refine ⟨?_, ?_⟩
  · rw [List.getElem?_toArray, List.getElem?_append_right (Nat.le_of_eq hlen), hlen, Nat.sub_self]
    rfl
  · rw [List.getElem?_toArray, List.getElem?_append_right (Nat.le_refl _), Nat.sub_self]
    rfl

variable {g : Graph} {a : Allocation} {config : Config} {code : Code} {id : Nat} {n : Node}
  {block : Block}

/-- The instructions of a node. -/
def chunk (g : Graph) (a : Allocation) (config : Config) (id : Nat) : List Inst :=
  match g.nodes[id]? with
  | none => []
  | some p =>
    match g.block? p.block with
    | none => []
    | some block => (emitNode g a config p.block block id p.node).toOption.getD []

/-- The instructions of the blocks. -/
def blockChunks (g : Graph) (a : Allocation) (config : Config) : List (List Inst) :=
  (List.range g.blocks.size).map fun b => (g.members b).flatMap (chunk g a config)

theorem chunk_of_emitNode {is : List Inst} (hn : g.nodes[id]? = some ⟨b, n⟩)
    (hb : g.block? b = some block) (h : emitNode g a config b block id n = .ok is) :
    chunk g a config id = is := by
  simp only [chunk, hn, hb, h]
  rfl

theorem orDangling_eq_ok {α : Type} {x : Option α} {v : α} : orDangling x = .ok v ↔ x = some v := by
  cases x <;> simp [orDangling]

theorem emitBlock_ok {is : List Inst} (hb : g.block? b = some block)
    (h : emitBlock g a config b block = .ok is) :
    (g.members b).flatMap (chunk g a config) = is ∧
      ∀ id n, g.nodes[id]? = some ⟨b, n⟩ →
        emitNode g a config b block id n = .ok (chunk g a config id) := by
  obtain ⟨parts, hparts, hflatten⟩ := bind_eq_ok.mp h
  have hmember {id : Nat} (hid : id ∈ g.members b) {part : List Inst}
      (hpart : (do let n ← orDangling (g.node? id); emitNode g a config b block id n) = .ok part) :
      ∃ n, g.nodes[id]? = some ⟨b, n⟩ ∧ emitNode g a config b block id n = .ok part := by
    obtain ⟨n, hn, hemit⟩ := bind_eq_ok.mp hpart
    obtain ⟨m, hm⟩ := Graph.blockOf?_eq_some.mp (Graph.mem_members.mp hid)
    rw [orDangling_eq_ok, Graph.node?_eq_some.mpr ⟨b, hm⟩, Option.some.injEq] at hn
    exact ⟨m, hm, hn ▸ hemit⟩
  obtain ⟨hmap, hall⟩ := map_of_mapM_eq_ok hparts fun id hid part hpart => by
    obtain ⟨n, hn, hemit⟩ := hmember hid hpart
    exact chunk_of_emitNode hn hb hemit
  refine ⟨?_, fun id n hn => ?_⟩
  · rw [← Except.ok.inj hflatten, List.flatMap_def, hmap]
  · have hid : id ∈ g.members b := Graph.mem_members.mpr (Graph.blockOf?_eq_some.mpr ⟨n, hn⟩)
    obtain ⟨m, hm, hemit⟩ := hmember hid (hall id hid)
    rw [hn, Option.some.injEq, Placed.mk.injEq] at hm
    rw [hm.2]
    exact hemit

/-- Code is the instructions of all nodes, one after the other. -/
theorem emit_ok (h : emit g a config = .ok code) :
    code = link (blockChunks g a config) ∧
      ∀ id b n block, g.nodes[id]? = some ⟨b, n⟩ → g.block? b = some block →
        emitNode g a config b block id n = .ok (chunk g a config id) := by
  obtain ⟨parts, hparts, hlink⟩ := bind_eq_ok.mp h
  have hentry {entry : Block × Nat} (hentry : entry ∈ g.blocks.toList.zipIdx) :
      g.block? entry.2 = some entry.1 := by
    rw [List.mem_zipIdx_iff_getElem?, Array.getElem?_toList] at hentry
    exact hentry
  obtain ⟨hmap, hall⟩ := map_of_mapM_eq_ok hparts fun entry hmem part hpart =>
    (emitBlock_ok (hentry hmem) hpart).1
  refine ⟨?_, fun id b n block hn hb => ?_⟩
  · rw [← Except.ok.inj hlink, hmap, blockChunks, List.range_eq_range', ← Array.length_toList,
      ← List.zipIdx_map_snd, List.map_map]
    rfl
  · have hmem : (block, b) ∈ g.blocks.toList.zipIdx := by
      rw [List.mem_zipIdx_iff_getElem?, Array.getElem?_toList]
      exact hb
    have hblock : emitBlock g a config b block = .ok ((g.members b).flatMap (chunk g a config)) :=
      hall (block, b) hmem
    exact (emitBlock_ok hb hblock).2 id n hn

/-- The position of the node of a block that comes after the given ones. -/
def position (g : Graph) (a : Allocation) (config : Config) (b : Nat) (done : List Nat) : Nat :=
  start (blockChunks g a config) b + (done.flatMap (chunk g a config)).length

variable {done rest : List Nat}

theorem blockChunks_length : (blockChunks g a config).length = g.blocks.size := by
  simp [blockChunks]

theorem blockChunks_getElem? (hb : b < g.blocks.size) :
    (blockChunks g a config)[b]? = some ((g.members b).flatMap (chunk g a config)) := by
  rw [blockChunks, List.getElem?_map, List.getElem?_range hb]
  rfl

theorem position_nil : position g a config b [] = start (blockChunks g a config) b := rfl

theorem position_append :
    position g a config b (done ++ [id]) = position g a config b done + (chunk g a config id).length := by
  simp [position, Nat.add_assoc]

theorem chunk_at (hb : b < g.blocks.size) (hmembers : g.members b = done ++ id :: rest) :
    (link (blockChunks g a config)).At (position g a config b done) (chunk g a config id) := by
  have hat : (link (blockChunks g a config)).At _ _ := link_at (blockChunks_getElem? hb)
  rw [hmembers, List.flatMap_append, List.flatMap_cons] at hat
  exact hat.right.left

/-- A later block starts behind a node. -/
theorem position_le_start {c : Nat} (hb : b < g.blocks.size) (hc : b < c)
    (hmembers : g.members b = done ++ id :: rest) :
    position g a config b done + (chunk g a config id).length
      ≤ start (blockChunks g a config) c := by
  have hle : start (blockChunks g a config) (b + 1) ≤ _ := start_mono hc
  rw [start_succ (blockChunks_getElem? hb), hmembers] at hle
  simp only [List.flatMap_append, List.flatMap_cons, List.length_append] at hle
  rw [position]
  omega

/-- How a run goes on after the instructions of a node: to the next node, out of the block, to the
trap, or not at all. -/
inductive Continues (g : Graph) (limited : Prop) (Inv : Nat → List Nat → Machine → Prop)
    (Post : Except Trap Unit × Machine → Prop) (b : Nat) (done : List Nat) (id : Nat)
    (isLast : Prop) : Except Trap Flow × Machine → Prop
  | next {m : Machine} (more : ¬isLast) (h : Inv b (done ++ [id]) m) :
      Continues g limited Inv Post b done id isLast (.ok .next, m)
  | fall {m : Machine} (last : isLast) (lt : b + 1 < g.blocks.size) (h : Inv (b + 1) [] m) :
      Continues g limited Inv Post b done id isLast (.ok .next, m)
  | jump {c : Nat} {m : Machine} (later : b < c) (lt : c < g.blocks.size) (h : Inv c [] m) :
      Continues g limited Inv Post b done id isLast (.ok (.jump c), m)
  | check {m : Machine} (h : Post (.error .unreachable, m))
      (stopped : limited → Post (.error .stepLimit, m)) :
      Continues g limited Inv Post b done id isLast (.ok (.jump g.blocks.size), m)
  | halt {m : Machine} (h : Post (.ok (), m)) :
      Continues g limited Inv Post b done id isLast (.ok .halt, m)
  | error {t : Trap} {m : Machine} (h : Post (.error t, m)) :
      Continues g limited Inv Post b done id isLast (.error t, m)

/-- What is proved of a node for all the machines at which an invariant holds in front of it. -/
structure Preserves (g : Graph) (a : Allocation) (config : Config) (limited : Prop)
    (Inv : Nat → List Nat → Machine → Prop) (Post : Except Trap Unit × Machine → Prop) : Prop where
  step : ∀ b done id rest n m, g.members b = done ++ id :: rest → g.nodes[id]? = some ⟨b, n⟩ →
    Inv b done m →
    Continues g limited Inv Post b done id (rest = []) (Machine.exec (chunk g a config id) m)
  stopped : limited → ∀ b done id rest n k m m', g.members b = done ++ id :: rest →
    g.nodes[id]? = some ⟨b, n⟩ → Inv b done m →
    Machine.exec ((chunk g a config id).take k) m = (.ok .next, m') → Post (.error .stepLimit, m')

variable {Inv : Nat → List Nat → Machine → Prop} {Post : Except Trap Unit × Machine → Prop}
  {m m' : Machine} {fuel : Nat} {limited : Prop}

/-- The trap behind the code is reached with a step left, unless the run is limited. -/
theorem runFrom_trap (hcode : code = link (blockChunks g a config)) (hb : b < g.blocks.size)
    (hmembers : g.members b = done ++ id :: rest)
    (hexec : Machine.exec (chunk g a config id) m = (.ok (.jump g.blocks.size), m')) :
    ∃ t, code.offset? g.blocks.size = some t ∧
      position g a config b done + (chunk g a config id).length ≤ t ∧ t < code.insts.size ∧
      ∀ fuel, Machine.runFrom code (fuel + 1) t m' = (.error .unreachable, m') := by
  subst hcode
  obtain ⟨i, hi, hmentions⟩ := Machine.exec_returns _ m m' _ hexec _ rfl
  have hmem : i ∈ (blockChunks g a config).flatten := by
    refine List.mem_flatten.mpr ⟨_, List.mem_of_getElem? (blockChunks_getElem? hb), ?_⟩
    refine List.mem_flatMap.mpr ⟨id, ?_, hi⟩
    rw [hmembers]
    exact List.mem_append_right _ List.mem_cons_self
  rw [← blockChunks_length] at hmentions
  obtain ⟨hoffset, hud2⟩ := link_trap hmem hmentions
  rw [blockChunks_length] at hoffset
  refine ⟨_, hoffset, ?_, (Array.getElem?_eq_some_iff.mp hud2).1, fun fuel => ?_⟩
  · exact Nat.le_trans (position_le_start hb (Nat.lt_succ_self b) hmembers) (start_le _ _)
  · exact Machine.runFrom_error hud2 rfl

/-- A run goes on from a node as an invariant says. -/
theorem runFrom_of_invariant (hcode : code = link (blockChunks g a config)) (hterm : g.Terminated)
    (hpreserves : Preserves g a config limited Inv Post) (hb : b < g.blocks.size)
    (hmembers : g.members b = done ++ rest) (hne : rest ≠ []) (hm : Inv b done m)
    (hfuel : ¬limited → code.insts.size ≤ position g a config b done + fuel) :
    Post (Machine.runFrom code fuel (position g a config b done) m) := by
  -- blocks are left for later ones, and within a block the nodes ahead get fewer
  induction hk : g.blocks.size - b using Nat.strongRecOn generalizing b done rest m fuel with
  | ind k ihBlock =>
  have hblock {c : Nat} {m' : Machine} {fuel' : Nat} (hbc : b < c) (hc : c < g.blocks.size)
      (hm' : Inv c [] m')
      (hfuel' : ¬limited → code.insts.size ≤ position g a config c [] + fuel') :
      Post (Machine.runFrom code fuel' (position g a config c []) m') := by
    exact ihBlock (g.blocks.size - c) (by omega) hc rfl (hterm.members_ne_nil hc) hm' hfuel' rfl
  induction rest generalizing done m fuel with
  | nil => exact absurd rfl hne
  | cons id rest ihNode =>
      have hid : id ∈ g.members b := by
        rw [hmembers]
        exact List.mem_append_right _ List.mem_cons_self
      obtain ⟨n, hn⟩ := Graph.blockOf?_eq_some.mp (Graph.mem_members.mp hid)
      have hcontinues := hpreserves.step b done id rest n m hmembers hn hm
      have hat : code.At (position g a config b done) (chunk g a config id) := by
        rw [hcode]
        exact chunk_at hb hmembers
      cases Machine.passes hat fuel m with
      | stopped hshort hexec hrun =>
          rw [hrun]
          refine hpreserves.stopped ?_ b done id rest n _ m _ hmembers hn hm hexec
          by_contra hlimited
          have hnil : chunk g a config id ≠ [] := by
            intro hnil
            rw [hnil] at hshort
            exact absurd hshort (Nat.not_lt_zero _)
          have hend := hat.end_le hnil
          have hsize := hfuel hlimited
          omega
      | next henough hexec hrun =>
          rw [hexec] at hcontinues
          cases hcontinues with
          | next hmore hm' =>
              rw [hrun, ← position_append]
              refine ihNode (by rw [hmembers]; simp) hmore hm' fun hlimited => ?_
              have hsize := hfuel hlimited
              rw [position_append]
              omega
          | fall hlast hlt hm' =>
              have hstart : position g a config (b + 1) []
                  = position g a config b done + (chunk g a config id).length := by
                rw [position_nil, start_succ (blockChunks_getElem? hb), hmembers, hlast, position]
                simp [Nat.add_assoc]
              rw [hrun, ← hstart]
              refine hblock (Nat.lt_succ_self b) hlt hm' fun hlimited => ?_
              have hsize := hfuel hlimited
              omega
      | @jump c fuel' m' henough hexec hrun =>
          rw [hexec] at hcontinues
          cases hcontinues with
          | jump hlater hlt hm' =>
              have hoffset : code.offset? c = some (position g a config c []) := by
                rw [hcode]
                exact link_offset? (blockChunks_length ▸ hlt)
              have hstart : position g a config b done + (chunk g a config id).length
                  ≤ position g a config c [] := position_le_start hb hlater hmembers
              rw [hrun _ hoffset]
              refine hblock hlater hlt hm' fun hlimited => ?_
              have hsize := hfuel hlimited
              omega
          | check hpost hlimit =>
              obtain ⟨t, hoffset, hle, hlt, htrap⟩ := runFrom_trap hcode hb hmembers hexec
              rw [hrun t hoffset]
              cases fuel' with
              | succ fuel' =>
                  rw [htrap fuel']
                  exact hpost
              | zero =>
                  have hud2 := Array.getElem?_eq_getElem hlt
                  rw [Machine.runFrom_zero hud2]
                  refine hlimit ?_
                  by_contra hlimited
                  have hsize := hfuel hlimited
                  omega
      | halt hexec hrun =>
          rw [hexec] at hcontinues
          cases hcontinues with
          | halt hpost =>
              rw [hrun]
              exact hpost
      | error hexec hrun =>
          rw [hexec] at hcontinues
          cases hcontinues with
          | error hpost =>
              rw [hrun]
              exact hpost

/-- What an invariant says of the end of a run of emitted code. A run is stopped before its end only
if the code has more instructions than a run may execute. -/
theorem run_of_invariant (hemit : emit g a config = .ok code) (hterm : g.Terminated)
    (hblocks : 0 < g.blocks.size)
    (hpreserves : Preserves g a config (Machine.stepLimit < code.insts.size) Inv Post)
    (hm : Inv 0 [] m) : Post (Machine.run code m) := by
  obtain ⟨hcode, -⟩ := emit_ok hemit
  refine runFrom_of_invariant hcode hterm hpreserves hblocks rfl (hterm.members_ne_nil hblocks) hm
    fun hshort => ?_
  have hstart : position g a config 0 [] = 0 := rfl
  omega

end Emission

end Isel
