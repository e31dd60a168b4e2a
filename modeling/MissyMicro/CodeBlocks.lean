import Mathlib.Logic.Function.Iterate
import MissyMicro.AssemblyCode

/-!
# Blocks of code

Instructions without jumps among them take a state to a state, and a call takes its arguments off
again. So a routine is followed from block to block, and what it does to the rest of the world is
put together from what its calls do.
-/

namespace CodeBlocks

open AssemblyCode

universe u w

variable {W : Type w} {F S L : Type u} {env : Env W F S}

def performAll (env : Env W F S) : List (Instr F S L) → State W → Option (State W)
  | [], s => some s
  | i :: block, s => (perform env s i).bind (performAll env block)

theorem performAll_append {block block' : List (Instr F S L)} {s t : State W}
    (first : performAll env block s = some t) :
    performAll env (block ++ block') s = performAll env block' t := by
  induction block generalizing s with
  | nil =>
    obtain rfl := Option.some.inj first
    rfl
  | cons i block ih =>
    obtain ⟨r, done, rest⟩ := Option.bind_eq_some_iff.mp first
    rw [List.cons_append, performAll, done]
    exact ih rest

/-- What a block leaves as it was. A called function may change the other registers. -/
structure Kept (s t : State W) : Prop where
  ebx : t.regs .ebx = s.regs .ebx
  ebp : t.regs .ebp = s.regs .ebp
  esi : t.regs .esi = s.regs .esi
  edi : t.regs .edi = s.regs .edi
  interrupts : t.interrupts = s.interrupts
  cr : t.cr = s.cr
  top : t.top = s.top
  stack : t.stack = s.stack

theorem Kept.refl (s : State W) : Kept s s := ⟨rfl, rfl, rfl, rfl, rfl, rfl, rfl, rfl⟩

theorem Kept.trans {s t r : State W} (h : Kept s t) (h' : Kept t r) : Kept s r :=
  ⟨h'.ebx.trans h.ebx, h'.ebp.trans h.ebp, h'.esi.trans h.esi, h'.edi.trans h.edi,
    h'.interrupts.trans h.interrupts, h'.cr.trans h.cr, h'.top.trans h.top,
    h'.stack.trans h.stack⟩

/-- The block does `g` to the world, from every state. -/
def Acts (env : Env W F S) (block : List (Instr F S L)) (g : W → W) : Prop :=
  ∀ s, ∃ t, performAll env block s = some t ∧ Kept s t ∧ t.world = g s.world

theorem Acts.append {block block' : List (Instr F S L)} {g g' : W → W} (h : Acts env block g)
    (h' : Acts env block' g') : Acts env (block ++ block') (fun w => g' (g w)) := by
  intro s
  obtain ⟨t, first, kept, world⟩ := h s
  obtain ⟨r, second, kept', world'⟩ := h' t
  refine ⟨r, (performAll_append first).trans second, kept.trans kept', ?_⟩
  rw [world', world]

/-- An operand does not read the stack. -/
theorem read_stack (s : State W) (stack : List U32) (src : Operand S) :
    read env { s with stack := stack } src = read env s src := by
  cases src <;> rfl

theorem performAll_push (pushed : List (Operand S)) (s : State W) :
    performAll env (pushed.map .push : List (Instr F S L)) s =
      some { s with stack := (pushed.map (read env s)).reverse ++ s.stack } := by
  induction pushed generalizing s with
  | nil => rfl
  | cons src pushed ih =>
    have later : pushed.map (read env { s with stack := read env s src :: s.stack }) =
        pushed.map (read env s) :=
      List.map_congr_left fun q _ => read_stack s _ q
    rw [List.map_cons, performAll, perform, Option.bind_some, ih, later, List.map_cons,
      List.reverse_cons, List.append_assoc]
    rfl

theorem perform_addEsp {s : State W} {words below : List U32} (stack : s.stack = words ++ below) :
    ∃ zf, perform env s (.addEsp (4 * words.length) : Instr F S L) =
      some { s with stack := below, zf := zf } := by
  have room : 4 * words.length / 4 = words.length := by omega
  have enough : words.length ≤ s.stack.length := by
    rw [stack, List.length_append]
    omega
  have dropped : s.stack.drop words.length = below := by
    rw [stack, List.drop_left]
  have popped : perform env s (.addEsp (4 * words.length) : Instr F S L) = some { s with
      stack := below, zf := decide (({ s with stack := below } : State W).esp = 0) } := by
    rw [perform, room, dropped, if_pos enough]
  exact ⟨_, popped⟩

/-- The state behind a call: the world and three registers are as the function left them. -/
theorem performAll_callWith (f : F) (pushed : List (Operand S)) (s : State W) :
    ∃ zf, performAll env (callWith f pushed : List (Instr F S L)) s =
      some { s.resume (env.call s.world f ((pushed.map (read env s)).reverse ++ s.stack)) with
        zf := zf } := by
  obtain ⟨called, hcalled⟩ : ∃ r, r = ({ s with
      stack := (pushed.map (read env s)).reverse ++ s.stack } : State W).resume
        (env.call s.world f ((pushed.map (read env s)).reverse ++ s.stack)) := ⟨_, rfl⟩
  have stack : called.stack = (pushed.map (read env s)).reverse ++ s.stack := by
    rw [hcalled]
    rfl
  have length : ((pushed.map (read env s)).reverse).length = pushed.length := by
    rw [List.length_reverse, List.length_map]
  obtain ⟨zf, popped⟩ := @perform_addEsp _ F S L env called _ _ stack
  refine ⟨zf, ?_⟩
  rw [length] at popped
  rw [callWith, performAll_append (performAll_push pushed s), performAll, perform, Option.bind_some,
    ← hcalled, performAll, popped, hcalled]
  rfl

theorem Acts.callWith {f : F} {pushed : List (Operand S)} {a : W → List U32} {g : W → W}
    (values : ∀ s, pushed.map (read env s) = a s.world)
    (called : ∀ w stack, (env.call w f ((a w).reverse ++ stack)).world = g w) :
    Acts env (callWith f pushed : List (Instr F S L)) g := by
  intro s
  obtain ⟨zf, done⟩ := @performAll_callWith _ F S L env f pushed s
  refine ⟨_, done, ⟨rfl, rfl, rfl, rfl, rfl, rfl, rfl, rfl⟩, ?_⟩
  rw [values]
  exact called s.world s.stack

theorem Acts.call {f : F} {g : W → W} (called : ∀ w stack, (env.call w f stack).world = g w) :
    Acts env ([.call f] : List (Instr F S L)) g :=
  fun s => ⟨_, rfl, ⟨rfl, rfl, rfl, rfl, rfl, rfl, rfl, rfl⟩, called s.world s.stack⟩

/-- The address that the call pushes is taken off by the `ret`. -/
theorem Acts.callNear {block : List (Instr F S L)} {g : W → W} (h : Acts env block g)
    (behindCall : S) : Acts env (callNear behindCall block) g := by
  intro s
  obtain ⟨t, done, kept, world⟩ := h { s with stack := env.symbol behindCall :: s.stack }
  obtain ⟨zf, popped⟩ := @perform_addEsp _ F S L env t [_] s.stack kept.stack
  refine ⟨{ t with stack := s.stack, zf := zf }, ?_, ⟨kept.ebx, kept.ebp, kept.esi, kept.edi,
    kept.interrupts, kept.cr, kept.top, rfl⟩, world⟩
  rw [AssemblyCode.callNear, List.cons_append, performAll, perform, Option.bind_some]
  exact (performAll_append done).trans (congrArg (Option.bind · _) popped)

theorem perform_inAl (s : State W) (port : Port) :
    ∃ t, perform env s (.inAl port : Instr F S L) = some t ∧
      t.world = (env.inb s.world (s.port port)).2 ∧
      Words.byteOf (t.regs .eax) 0 = (env.inb s.world (s.port port)).1 ∧ t.stack = s.stack :=
  ⟨_, rfl, rfl, State.setAl_byte _ _, rfl⟩

theorem setWidth_dx (x : U32) (port : BitVec 16) :
    (x &&& 0xffff0000 ||| port.setWidth 32).setWidth 16 = port := by
  have mask : ∀ i < 16, (0xffff0000#32).getLsbD i = false := by decide
  apply BitVec.eq_of_getLsbD_eq
  intro i hi
  rw [BitVec.getLsbD_setWidth, BitVec.getLsbD_or, BitVec.getLsbD_and, BitVec.getLsbD_setWidth,
    BitVec.ofNat_eq_ofNat, mask i hi]
  simp [hi, show i < 32 by omega]

theorem perform_movDx (s : State W) (port : BitVec 16) :
    ∃ t, perform env s (.movDx port : Instr F S L) = some t ∧ t.world = s.world ∧
      t.port .dx = port ∧ t.stack = s.stack := by
  refine ⟨_, rfl, rfl, ?_, rfl⟩
  rw [State.port, State.setReg_same, setWidth_dx]

theorem perform_andAl (s : State W) (mask : BitVec 8) :
    ∃ t, perform env s (.andAl mask : Instr F S L) = some t ∧ t.world = s.world ∧
      Words.byteOf (t.regs .eax) 0 = Words.byteOf (s.regs .eax) 0 &&& mask ∧
      t.zf = decide (Words.byteOf (s.regs .eax) 0 &&& mask = 0) ∧ t.stack = s.stack :=
  ⟨_, rfl, rfl, State.setAl_byte _ _, rfl, rfl⟩

def saved (s : State W) : State W :=
  { s with
    stack := s.regs .edi :: s.regs .esi :: s.regs .ebp :: s.esp :: s.regs .ebx :: s.regs .edx ::
      s.regs .ecx :: s.regs .eax :: s.stack }

@[simp]
theorem saved_world (s : State W) : (saved s).world = s.world := rfl

@[simp]
theorem interrupted_world (withCode : Bool) (ctx : Context) (s : State W) :
    (interrupted withCode ctx s).world = s.world := rfl

theorem perform_pushad (s : State W) : perform env s (.pushad : Instr F S L) = some (saved s) := rfl

/-- The registers come back, whatever has been done to them. -/
theorem perform_popad {s t : State W} (stack : t.stack = (saved s).stack) :
    perform env t (.popad : Instr F S L) = some { t with regs := s.regs, stack := s.stack } := by
  have regs : registers (s.regs .eax) (s.regs .ecx) (s.regs .edx) (s.regs .ebx) (s.regs .ebp)
      (s.regs .esi) (s.regs .edi) = s.regs := by
    funext r
    cases r <;> rfl
  rw [perform, stack]
  exact congrArg (fun regs => some { t with regs := regs, stack := s.stack }) regs

/-- The flag decides between two places. -/
theorem ite_flag {s : State W} {p : Prop} [Decidable p] (flag : s.zf = decide p)
    (x y : List (Instr F S L)) : (if s.zf then x else y) = if p then x else y := by
  rw [flag]
  simp only [decide_eq_true_eq]

variable [DecidableEq L] {code rest : List (Instr F S L)}

/-- More turns change nothing once a run has ended. -/
theorem exec_more {turns : Nat} {rest : List (Instr F S L)} {s : State W} {o : Outcome W}
    (ended : exec env code turns rest s = o) (finished : o ≠ .unfinished) (k : Nat) :
    exec env code (turns + k) rest s = o := by
  induction turns generalizing rest s with
  | zero => exact absurd ended.symm finished
  | succ turns ih =>
    rw [Nat.succ_add]
    cases rest with
    | nil => exact ended
    | cons i rest =>
      have onward (h : (perform env s i).elim .stuck (exec env code turns rest) = o) :
          (perform env s i).elim .stuck (exec env code (turns + k) rest) = o := by
        cases done : perform env s i with
        | none =>
          rw [done] at h
          exact h
        | some t =>
          rw [done] at h
          exact ih h
      cases i with
      | jmp l => exact ih ended
      | jz l => exact ih ended
      | jnz l => exact ih ended
      | loop l => exact ih ended
      | hang => exact ended
      | ret => exact ended
      | iretd => exact ended
      | _ => exact onward ended

def Runs (env : Env W F S) (code rest : List (Instr F S L)) (s : State W) (o : Outcome W) : Prop :=
  o ≠ .unfinished ∧ ∃ turns, exec env code turns rest s = o

theorem Runs.unique {s : State W} {o o' : Outcome W} (h : Runs env code rest s o)
    (h' : Runs env code rest s o') : o = o' := by
  obtain ⟨finished, turns, ended⟩ := h
  obtain ⟨finished', turns', ended'⟩ := h'
  have more := exec_more ended finished turns'
  rw [Nat.add_comm] at more
  exact more.symm.trans (exec_more ended' finished' turns)

/-- Running on from one place gives what running on from the other gives. -/
def Leads (env : Env W F S) (code rest : List (Instr F S L)) (s : State W)
    (rest' : List (Instr F S L)) (t : State W) : Prop :=
  ∀ o, Runs env code rest' t o → Runs env code rest s o

theorem Leads.trans {rest' rest'' : List (Instr F S L)} {s t r : State W}
    (h : Leads env code rest s rest' t) (h' : Leads env code rest' t rest'' r) :
    Leads env code rest s rest'' r :=
  fun o runs => h o (h' o runs)

theorem Leads.perform {i : Instr F S L} {s t : State W}
    (done : AssemblyCode.perform env s i = some t) : Leads env code (i :: rest) s rest t := by
  rintro o ⟨finished, turns, ended⟩
  refine ⟨finished, turns + 1, ?_⟩
  have onward (goes : exec env code (turns + 1) (i :: rest) s =
      (AssemblyCode.perform env s i).elim .stuck (exec env code turns rest)) :
      exec env code (turns + 1) (i :: rest) s = o := by
    rw [goes, done]
    exact ended
  cases i with
  | jmp l => cases done
  | jz l => cases done
  | jnz l => cases done
  | loop l => cases done
  | hang => cases done
  | ret => cases done
  | iretd => cases done
  | _ => exact onward rfl

theorem Leads.block {block : List (Instr F S L)} {s t : State W}
    (done : performAll env block s = some t) : Leads env code (block ++ rest) s rest t := by
  induction block generalizing s with
  | nil =>
    obtain rfl := Option.some.inj done
    exact fun o runs => runs
  | cons i block ih =>
    obtain ⟨r, first, second⟩ := Option.bind_eq_some_iff.mp done
    exact (Leads.perform first).trans (ih second)

theorem Leads.jmp {l : L} (s : State W) : Leads env code (.jmp l :: rest) s (after l code) s :=
  fun _ ⟨finished, turns, ended⟩ => ⟨finished, turns + 1, ended⟩

theorem Leads.jz {l : L} (s : State W) :
    Leads env code (.jz l :: rest) s (if s.zf then after l code else rest) s :=
  fun _ ⟨finished, turns, ended⟩ => ⟨finished, turns + 1, ended⟩

theorem Leads.jnz {l : L} (s : State W) :
    Leads env code (.jnz l :: rest) s (if s.zf then rest else after l code) s :=
  fun _ ⟨finished, turns, ended⟩ => ⟨finished, turns + 1, ended⟩

theorem Leads.loop {l : L} (s : State W) :
    Leads env code (.loop l :: rest) s
      (if s.regs .ecx - 1 = 0 then rest else after l code)
      (s.setReg .ecx (s.regs .ecx - 1)) :=
  fun _ ⟨finished, turns, ended⟩ => ⟨finished, turns + 1, ended⟩

theorem runs_hang (s : State W) : Runs env code (.hang :: rest) s (.halted s) :=
  ⟨fun h => (by cases h), 1, rfl⟩

theorem runs_iretd {s : State W} {eip cs eflags : U32} {stack : List U32}
    (words : s.stack = eip :: cs :: eflags :: stack) :
    Runs env code (.iretd :: rest) s (.resumed eip cs eflags { s with stack := stack }) := by
  refine ⟨fun h => (by cases h), 1, ?_⟩
  rw [exec, words]

theorem runs_ret {s : State W} {eip : U32} {stack : List U32} (words : s.stack = eip :: stack) :
    Runs env code (.ret :: rest) s (.returned eip { s with stack := stack }) := by
  refine ⟨fun h => (by cases h), 1, ?_⟩
  rw [exec, words]

/-- A loop at a label: `ecx` more turns, of which each takes on the state by `turn`. -/
theorem Leads.turns {l : L} {body : List (Instr F S L)} (here : after l code = body ++ .loop l :: rest)
    {turn : State W → State W} {s : State W} {n : Nat} (count : s.regs .ecx = BitVec.ofNat 32 (n + 1))
    (small : n + 1 < 2 ^ 32)
    (body_turn : ∀ t, performAll env body t = some (turn t) ∧ (turn t).regs .ecx = t.regs .ecx) :
    Leads env code (body ++ .loop l :: rest) s rest
      ((fun t => (turn t).setReg .ecx ((turn t).regs .ecx - 1))^[n + 1] s) := by
  induction n generalizing s with
  | zero =>
    have last : (turn s).regs .ecx - 1 = 0 := by
      rw [(body_turn s).2, count]
      rfl
    have looped := @Leads.loop _ _ _ _ env _ code rest l (turn s)
    rw [if_pos last] at looped
    exact (Leads.block (body_turn s).1).trans looped
  | succ n ih =>
    have left : (turn s).regs .ecx - 1 = BitVec.ofNat 32 (n + 1) := by
      rw [(body_turn s).2, count]
      bv_omega
    have more : (turn s).regs .ecx - 1 ≠ 0 := by
      rw [left]
      bv_omega
    have looped := @Leads.loop _ _ _ _ env _ code rest l (turn s)
    rw [if_neg more, here] at looped
    rw [Function.iterate_succ_apply]
    refine ((Leads.block (body_turn s).1).trans looped).trans (ih ?_ (by omega))
    exact ((turn s).setReg_same .ecx _).trans left

theorem service_eq {withCode : Bool} {ctx : Context} {s : State W} {o : Outcome W}
    (runs : Runs env code code (interrupted withCode ctx s) o)
    (finished : service env withCode code ctx s ≠ .unfinished) :
    service env withCode code ctx s = o :=
  Runs.unique ⟨finished, _, rfl⟩ runs

/-- Behind the saved registers stand the three words for `iretd`. -/
theorem runs_popad {s t : State W} {eip cs eflags : U32} {stack : List U32}
    (same : t.stack = (saved s).stack) (words : s.stack = eip :: cs :: eflags :: stack) :
    Runs env code (.popad :: .iretd :: rest) t
      (.resumed eip cs eflags { t with regs := s.regs, stack := stack }) :=
  Leads.perform (perform_popad same) _
    (@runs_iretd _ _ _ _ env _ code rest { t with regs := s.regs, stack := s.stack } _ _ _ _ words)

end CodeBlocks
