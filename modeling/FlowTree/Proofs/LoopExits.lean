import FlowTree.Proofs.FlatDispatch
import FlowTree.Proofs.TreeShape

/-!
# Leaving loops

The dispatchers of a lowered function always know where to go on, whatever the nodes do, and a loop
is only left for one of its exits.

Which loops a run leaves, and for which blocks, does not show in its result.  So the dispatcher is
given once more with a log: whenever a loop has no place for a block, the loop is noted together with
the block whose name the dispatcher around it takes out of the exit slot.  Without the log it is the
same dispatcher.

## Main statements

* `Tree.gotoLogged_snd`, `Tree.runLogged_snd` — the log changes nothing.
* `Tree.gotoLogged_exits` — a loop is left for a block outside it.
* `Tree.run_finds_blocks` — a run finds every block that it goes to, and leaves loops by their exits.
-/

namespace FlowTree

variable {ν σ V E : Type}

/-! ## Leaving a block -/

namespace BlockNode

variable [FrameValue V] {n : BlockNode ν} {run : Runner ν σ V E} {s s' : RunState σ V}

/-- A block is left for one of its successors. -/
theorem mem_successors_of_execute {next : BlockId} (h : n.execute run s = (.ok (.inl next), s')) :
    next ∈ n.successors := by
  simp only [execute] at h
  split at h
  · cases h
  · cases h
  · split at h
    · cases h
    · rename_i hnext
      cases h
      exact List.mem_of_getElem? hnext

/-- A run that ends early at a block ends because its node failed or chose an edge that the block does
not have. -/
theorem execute_error {e : RunError E} (h : n.execute run s = (.error e, s')) :
    (∃ b x, e = .node b x) ∨ ∃ b position, e = .invalidSuccessor b position := by
  simp only [execute] at h
  split at h
  · cases h
    exact .inl ⟨_, _, rfl⟩
  · cases h
  · split at h
    · cases h
      exact .inr ⟨_, _, rfl⟩
    · cases h

end BlockNode

namespace Tree

/-! ## Logs -/

/-- Go to block `b` from inside the loops of a path, with the loops that are left on the way and the
blocks that they hand on. -/
def gotoLogged (t : Tree ν) : List (LoopNode ν) → BlockId → RunState σ V →
    List (LoopNode ν × BlockId) × Except (RunError E) (Cursor ν) × RunState σ V
  | [], b, s => ([], t.goto [] b s)
  | l :: outer, b, s =>
    match l.place? b with
    | some _ => ([], t.goto (l :: outer) b s)
    | none =>
      match t.exitSlot with
      | none => ([], .error (.missingLoopExit l.header), s)
      | some slot =>
        match (s.frame.put slot (.block b)).takeBlock slot with
        | (none, frame) => ([], .error (.missingLoopExit l.header), { s with frame })
        | (some resumed, frame) =>
          let (log, outcome) := t.gotoLogged outer resumed { s with frame }
          ((l, resumed) :: log, outcome)

/-- Go on from a cursor for at most `limit` blocks, with the loops that are left. -/
def runFromLogged [FrameValue V] (t : Tree ν) (run : Runner ν σ V E) :
    Nat → Cursor ν → RunState σ V →
      List (LoopNode ν × BlockId) × Option (Except (RunError E) (Option V)) × RunState σ V
  | 0, _, s => ([], none, s)
  | limit + 1, c, s =>
    match c.block.execute run s with
    | (.error e, s) => ([], some (.error e), s)
    | (.ok (.inr value), s) => ([], some (.ok value), s)
    | (.ok (.inl next), s) =>
      match t.gotoLogged c.path next s with
      | (log, .error e, s) => (log, some (.error e), s)
      | (log, .ok c, s) =>
        let (later, outcome) := t.runFromLogged run limit c s
        (log ++ later, outcome)

/-- Run the function for at most `limit` blocks, with the loops that are left. -/
def runLogged [FrameValue V] (t : Tree ν) (run : Runner ν σ V E) (limit : Nat) (world : σ)
    (frame : Frame V) :
    List (LoopNode ν × BlockId) × Option (Except (RunError E) (Option V)) × RunState σ V :=
  match t.start { world, frame } with
  | (.error e, s) => ([], some (.error e), s)
  | (.ok c, s) => t.runFromLogged run limit c s

theorem gotoLogged_snd (t : Tree ν) (path : List (LoopNode ν)) (b : BlockId) (s : RunState σ V) :
    (t.gotoLogged path b s).2 = (t.goto path b s : Except (RunError E) (Cursor ν) × RunState σ V) := by
  induction path generalizing b s with
  | nil => rfl
  | cons l outer ih =>
    cases hplace : l.place? b with
    | some place => simp only [gotoLogged, hplace]
    | none =>
      cases hexit : t.exitSlot with
      | none => simp only [gotoLogged, goto, hplace, hexit]
      | some slot =>
        rcases htake : (s.frame.put slot (.block b)).takeBlock slot with ⟨_ | resumed, frame⟩
        · simp only [gotoLogged, goto, hplace, hexit, htake]
        · simp only [gotoLogged, goto, hplace, hexit, htake]
          exact ih resumed { s with frame }

theorem runFromLogged_snd [FrameValue V] (t : Tree ν) (run : Runner ν σ V E) (limit : Nat)
    (c : Cursor ν) (s : RunState σ V) :
    (t.runFromLogged run limit c s).2 = t.runFrom run limit c s := by
  induction limit generalizing c s with
  | zero => rfl
  | succ limit ih =>
    rcases hexecute : c.block.execute run s with ⟨_ | next | value, s₁⟩
    · simp only [runFromLogged, runFrom, step, hexecute]
    · have hsame := t.gotoLogged_snd (E := E) c.path next s₁
      rcases hgoto : t.gotoLogged (E := E) c.path next s₁ with ⟨log, _ | c', s₂⟩
      · rw [hgoto] at hsame
        simp only [runFromLogged, runFrom, step, hexecute, hgoto, ← hsame]
      · rw [hgoto] at hsame
        simp only [runFromLogged, runFrom, step, hexecute, hgoto, ← hsame]
        exact ih c' s₂
    · simp only [runFromLogged, runFrom, step, hexecute]

/-- **The log changes nothing.** -/
theorem runLogged_snd [FrameValue V] (t : Tree ν) (run : Runner ν σ V E) (limit : Nat) (world : σ)
    (frame : Frame V) : (t.runLogged run limit world frame).2 = t.run run limit world frame := by
  rcases hstart : t.start (E := E) { world, frame } with ⟨_ | c, s⟩
  · simp only [runLogged, Tree.run, hstart]
  · simp only [runLogged, Tree.run, hstart]
    exact t.runFromLogged_snd run limit c s

/-! ## Safety -/

section Safety

variable {g : FlowGraph} {t : Tree ν} {p : Flat ν} {Ls : List Loop} {rep : BlockId → LoopNode ν}
  {u v : BlockId} (hd : Disperses g t p Ls rep)

include hd

/-- **A loop is left for a block outside it.** -/
theorem gotoLogged_exits {chain : List Loop} (ha : Around Ls v chain) (s : RunState σ V) :
    ∀ x ∈ (t.gotoLogged (E := E) (chain.map fun L => rep L.header) v s).1,
      ∃ L ∈ chain, x = (rep L.header, v) ∧ L.contains v = false := by
  induction chain generalizing s with
  | nil => exact fun x hx => absurd hx List.not_mem_nil
  | cons L rest ih =>
    have hL : L ∈ Ls := ha.mem L List.mem_cons_self
    rw [List.map_cons]
    intro x hx
    cases hplace : (rep L.header).place? v with
    | some place =>
      simp only [gotoLogged, hplace] at hx
      exact absurd hx List.not_mem_nil
    | none =>
      -- a loop that held the block would have a place for it
      have hout : L.contains v = false := by
        refine ha.not_contains hd.sorted fun hdirect => ?_
        by_cases hh : v = L.header
        · subst hh
          rw [(hd.folded.loops hL).header] at hplace
          cases hplace
        · obtain ⟨k, _, hk, _⟩ := (hd.folded.loops hL).place hdirect hh
          rw [hk] at hplace
          cases hplace
      obtain ⟨slot, hslot⟩ := hd.exit (List.ne_nil_of_mem hL)
      have htake : (s.frame.put slot (.block v)).takeBlock slot =
          (some v, (s.frame.put slot (.block v)).clear slot) := by
        simp [Frame.takeBlock]
      simp only [gotoLogged, hplace, hslot, htake] at hx
      rcases List.mem_cons.1 hx with rfl | hx
      · exact ⟨L, List.mem_cons_self, rfl, hout⟩
      · obtain ⟨M, hM, hx⟩ := ih (ha.tail hout) _ x hx
        exact ⟨M, List.mem_cons_of_mem L hM, hx⟩

variable [FrameValue V] {run : Runner ν σ V E}

/-- If a run ends early, a node failed or chose an edge that its block does not have. -/
theorem runFrom_error (limit : Nat) {c : Cursor ν} {chain : List Loop} {s : RunState σ V}
    {e : RunError E} (hu : g.Reachable u) (hat : At p Ls rep u c chain)
    (h : (t.runFrom run limit c s).1 = some (.error e)) :
    (∃ b x, e = .node b x) ∨ ∃ b position, e = .invalidSuccessor b position := by
  induction limit generalizing u c chain s with
  | zero => cases h
  | succ limit ih =>
    rcases hexecute : c.block.execute run s with ⟨e' | next | value, s₁⟩
    · simp only [runFrom, step, hexecute, Option.some.injEq, Except.error.injEq] at h
      exact h ▸ BlockNode.execute_error hexecute
    · have hedge : g.Edge u next :=
        ⟨_, hd.successors hat.block, BlockNode.mem_successors_of_execute hexecute⟩
      obtain ⟨c', chain', frame', hat', _, hgoto⟩ := goto_arrives (E := E) hd
        (hd.shaped.lt_of_reachable (hu.step hedge)) (hat.around hd hu hedge) s₁
      rw [← hat.path] at hgoto
      rw [(runFrom_of_next hexecute hgoto limit).1] at h
      exact ih (hu.step hedge) hat' h
    · simp only [runFrom, step, hexecute, Option.some.injEq, reduceCtorEq] at h

/-- A run leaves a loop along an edge out of it. -/
theorem runFromLogged_exits (limit : Nat) {c : Cursor ν} {chain : List Loop} {s : RunState σ V}
    (hu : g.Reachable u) (hat : At p Ls rep u c chain) :
    ∀ x ∈ (t.runFromLogged run limit c s).1, ∃ L ∈ Ls, x.1 = rep L.header ∧
      L.contains x.2 = false ∧ ∃ w, L.contains w = true ∧ g.Edge w x.2 := by
  induction limit generalizing u c chain s with
  | zero => exact fun x hx => absurd hx List.not_mem_nil
  | succ limit ih =>
    intro x hx
    rcases hexecute : c.block.execute run s with ⟨e' | next | value, s₁⟩
    · simp only [runFromLogged, hexecute, List.not_mem_nil] at hx
    · have hedge : g.Edge u next :=
        ⟨_, hd.successors hat.block, BlockNode.mem_successors_of_execute hexecute⟩
      have haround := hat.around hd hu hedge
      have hexits := gotoLogged_exits (E := E) hd haround s₁
      obtain ⟨c', chain', frame', hat', _, hgoto⟩ := goto_arrives (E := E) hd
        (hd.shaped.lt_of_reachable (hu.step hedge)) haround s₁
      rw [← gotoLogged_snd] at hgoto
      rw [← hat.path] at hexits hgoto
      rcases hlogged : t.gotoLogged (E := E) c.path next s₁ with ⟨log, outcome⟩
      rw [hlogged] at hexits hgoto
      obtain rfl := hgoto
      simp only [runFromLogged, hexecute, hlogged] at hx
      rcases List.mem_append.1 hx with hx | hx
      · obtain ⟨L, hL, rfl, hnot⟩ := hexits x hx
        obtain ⟨hLs, hc⟩ := (hat.mem_iff L).1 hL
        exact ⟨L, hLs, rfl, hnot, u, hc, hedge⟩
      · exact ih (hu.step hedge) hat' x hx
    · simp only [runFromLogged, hexecute, List.not_mem_nil] at hx

end Safety

/-- **A run is never lost.**  Whatever the nodes do to the frame and wherever they send control, a run
of a lowered function finds a node for every block that it goes to, and a loop that is over always
tells where to go on.  The log of the run, which is otherwise the same run, has for each loop that was
left the block that it handed to the dispatcher around it; that block is one of the loop's exits. -/
theorem run_finds_blocks [FrameValue V] {f : Func} {layout : Layout} {options : Options} {τ : Type}
    {create : Block → Decoration → StateM τ ν} {seed : τ} {t : Tree ν}
    (h : ((lower f layout options create).run seed).1 = .ok t) (run : Runner ν σ V E) (limit : Nat)
    (world : σ) (frame : Frame V) :
    (∀ b, (t.run run limit world frame).1 ≠ some (.error (.missingNode b))) ∧
      (∀ b, (t.run run limit world frame).1 ≠ some (.error (.missingLoopExit b))) ∧
      (t.runLogged run limit world frame).2 = t.run run limit world frame ∧
      ∀ l b, (l, b) ∈ (t.runLogged run limit world frame).1 → l ∈ t.loops ∧ b ∈ l.exits := by
  obtain ⟨a, p, Ls, rep, _, hl⟩ := lower_lowered h
  have hd := hl.disperses
  have hentry := FlowGraph.reachable_entry a.graph
  obtain ⟨c, chain, hat, hstart⟩ := start_at (E := E) hd ({ world, frame } : RunState σ V)
  have herror : ∀ {e}, (t.run run limit world frame).1 = some (.error e) →
      (∃ b x, e = .node b x) ∨ ∃ b position, e = .invalidSuccessor b position := by
    intro e he
    simp only [Tree.run, hstart] at he
    exact runFrom_error hd limit hentry hat he
  refine ⟨fun b hb => ?_, fun b hb => ?_, t.runLogged_snd run limit world frame, fun l b hx => ?_⟩
  · rcases herror hb with ⟨_, _, he⟩ | ⟨_, _, he⟩ <;> cases he
  · rcases herror hb with ⟨_, _, he⟩ | ⟨_, _, he⟩ <;> cases he
  · simp only [runLogged, hstart] at hx
    obtain ⟨L, hL, rfl, hout, hedge⟩ := runFromLogged_exits hd limit hentry hat (l, b) hx
    obtain ⟨taken, hmade, _⟩ := (hd.folded.loops hL).made
    refine ⟨hl.mem_loops_iff.2 ⟨L, hL, rfl⟩, ?_⟩
    rw [hmade]
    have hnest := LoopForest.ofGraph_nested hl.planned.loops
    exact (hnest.mem_exits_iff (hl.mem_loops.1 hL)).2 ⟨hout, hedge⟩

theorem run_nests_finds_blocks : ∃ t : Tree Block,
    ((lower nests (.onePerValue nests) {} fun b _ => (pure b : StateM Unit Block)).run ()).1 = .ok t ∧
    (t.runLogged listed 9 [0, 0, 1, 0, 3] t.newFrame).1.map (fun x => (x.1.header, x.2)) =
      [(⟨2⟩, ⟨3⟩), (⟨4⟩, ⟨5⟩), (⟨3⟩, ⟨5⟩), (⟨1⟩, ⟨5⟩)] ∧
    (∀ b, (t.run listed 9 [0, 0, 1, 0, 3] t.newFrame).1 ≠ some (.error (.missingNode b))) ∧
    ∀ l b, (l, b) ∈ (t.runLogged listed 9 [0, 0, 1, 0, 3] t.newFrame).1 → b ∈ l.exits := by
  have hlog : (((lower nests (.onePerValue nests) {} fun b _ =>
      (pure b : StateM Unit Block)).run ()).1.map fun t =>
        (t.runLogged listed 9 [0, 0, 1, 0, 3] t.newFrame).1.map fun x => (x.1.header, x.2)) =
      .ok [(⟨2⟩, ⟨3⟩), (⟨4⟩, ⟨5⟩), (⟨3⟩, ⟨5⟩), (⟨1⟩, ⟨5⟩)] := by
    decide +kernel
  cases ht : ((lower nests (.onePerValue nests) {} fun b _ =>
    (pure b : StateM Unit Block)).run ()).1 with
  | error e => rw [ht] at hlog; cases hlog
  | ok t =>
    rw [ht] at hlog
    obtain ⟨hnode, _, _, hexits⟩ := run_finds_blocks ht listed 9 [0, 0, 1, 0, 3] t.newFrame
    exact ⟨t, rfl, Except.ok.inj hlog, hnode, fun l b hx => (hexits l b hx).2⟩

end Tree

end FlowTree
