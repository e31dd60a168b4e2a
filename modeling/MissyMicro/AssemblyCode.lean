import MissyMicro.Words
import Mathlib.Logic.Function.Basic

/-!
# Assembly routines and the words they save

A routine is a list of instructions with labels among them. The stack is the list of the words
above the stack pointer, and what lies outside the processor is reached through a few functions of
the environment. Running a routine on shapes, which only say what words of the interrupted program
stand where, tells how every run of it ends.
-/

namespace AssemblyCode

universe u w

/-! ## Instructions -/

inductive Reg where
  | eax | ecx | edx | ebx | ebp | esi | edi
  deriving DecidableEq

/-- `S` names what the linker puts somewhere: `sym` is the address and `mem` the word there. `deref`
is the word at the address in a register. -/
inductive Operand (S : Type u) where
  | reg (r : Reg)
  | imm (x : U32)
  | sym (name : S)
  | mem (name : S)
  | deref (r : Reg)

inductive Port where
  | imm (p : BitVec 16)
  | dx

inductive Alu where
  | and | or | xor | add

def Alu.apply : Alu → U32 → U32 → U32
  | .and, x, y => x &&& y
  | .or, x, y => x ||| y
  | .xor, x, y => x ^^^ y
  | .add, x, y => x + y

/-- `F` names functions that are called and `L` labels. The names are those of the instructions;
`movAl`, `andAl` and `movDx` are the ones that change a part of a register. -/
inductive Instr (F S L : Type u) where
  | push (src : Operand S)
  | pop (dst : Operand S)
  | pushad
  | popad
  | addEsp (bytes : Nat)
  | mov (dst src : Operand S)
  | movFromCr (dst : Reg) (n : Nat)
  | movToCr (n : Nat) (src : Reg)
  | alu (op : Alu) (dst src : Operand S)
  | inc (dst : Operand S)
  | mul (src : Reg)
  | movAl (x : BitVec 8)
  | andAl (x : BitVec 8)
  | movDx (x : BitVec 16)
  | inAl (port : Port)
  | outAl (port : Port)
  | call (f : F)
  | callAt (r : Reg)
  | cli
  | sti
  | label (l : L)
  | jmp (l : L)
  | jz (l : L)
  | jnz (l : L)
  | loop (l : L)
  | hang
  | ret
  | iretd

section Calls

variable {F S L : Type u}

/-- The words are pushed in this order, and taken off behind the call. -/
def callWith (f : F) (pushed : List (Operand S)) : List (Instr F S L) :=
  pushed.map .push ++ [.call f, .addEsp (4 * pushed.length)]

/-- A call of assembly code: the code in line, on top of the address that the call pushes and the
`ret` takes. -/
def callNear (behindCall : S) (code : List (Instr F S L)) : List (Instr F S L) :=
  .push (.sym behindCall) :: code ++ [.addEsp 4]

end Calls

/-! ## States -/

def registers {α : Type w} (eax ecx edx ebx ebp esi edi : α) : Reg → α
  | .eax => eax
  | .ecx => ecx
  | .edx => edx
  | .ebx => ebx
  | .ebp => ebp
  | .esi => esi
  | .edi => edi

/-- The stack grows down from `top`. -/
structure State (W : Type w) where
  regs : Reg → U32
  zf : Bool
  interrupts : Bool
  cr : Nat → U32
  top : U32
  stack : List U32
  world : W

/-- What a called function leaves in the registers that it need not keep. -/
structure Returned (W : Type w) where
  world : W
  eax : U32
  ecx : U32
  edx : U32
  zf : Bool

/-- A function is given the stack, on which its arguments are. -/
structure Env (W : Type w) (F S : Type u) where
  symbol : S → U32
  load : W → U32 → U32
  store : W → U32 → U32 → W
  inb : W → BitVec 16 → BitVec 8 × W
  outb : W → BitVec 16 → BitVec 8 → W
  entry : U32 → F
  call : W → F → List U32 → Returned W

section Semantics

variable {W : Type w} {F S L : Type u}

namespace State

def esp (s : State W) : U32 := s.top - BitVec.ofNat 32 (4 * s.stack.length)

def setReg (s : State W) (r : Reg) (x : U32) : State W :=
  { s with regs := Function.update s.regs r x }

@[simp]
theorem setReg_same (s : State W) (r : Reg) (x : U32) : (s.setReg r x).regs r = x :=
  Function.update_self _ _ _

@[simp]
theorem setReg_other (s : State W) {r q : Reg} (x : U32) (apart : q ≠ r) :
    (s.setReg r x).regs q = s.regs q :=
  Function.update_of_ne apart _ _

def setAl (s : State W) (x : BitVec 8) : State W :=
  s.setReg .eax (Words.setByte (s.regs .eax) 0 x)

theorem byteOf_setByte (w : U32) (x : BitVec 8) : Words.byteOf (Words.setByte w 0 x) 0 = x := by
  apply BitVec.eq_of_getLsbD_eq
  intro i hi
  simp [Words.byteOf, Words.setByte, hi]

@[simp]
theorem setAl_byte (s : State W) (x : BitVec 8) : Words.byteOf ((s.setAl x).regs .eax) 0 = x := by
  rw [setAl, setReg_same, byteOf_setByte]

def port (s : State W) : Port → BitVec 16
  | .imm p => p
  | .dx => (s.regs .edx).setWidth 16

def resume (s : State W) (r : Returned W) : State W :=
  { s with
    regs := registers r.eax r.ecx r.edx (s.regs .ebx) (s.regs .ebp) (s.regs .esi) (s.regs .edi)
    zf := r.zf
    world := r.world }

end State

def read (env : Env W F S) (s : State W) : Operand S → U32
  | .reg r => s.regs r
  | .imm x => x
  | .sym name => env.symbol name
  | .mem name => env.load s.world (env.symbol name)
  | .deref r => env.load s.world (s.regs r)

/-- There is no store to an immediate operand or an address. -/
def write (env : Env W F S) (s : State W) (x : U32) : Operand S → Option (State W)
  | .reg r => some (s.setReg r x)
  | .imm _ => none
  | .sym _ => none
  | .mem name => some { s with world := env.store s.world (env.symbol name) x }
  | .deref r => some { s with world := env.store s.world (s.regs r) x }

/-- An instruction that goes on to the next one; `none` is of the others, and of a stack that holds
too little. -/
def perform (env : Env W F S) (s : State W) : Instr F S L → Option (State W)
  | .push src => some { s with stack := read env s src :: s.stack }
  | .pop dst =>
    match s.stack with
    | x :: stack => write env { s with stack := stack } x dst
    | [] => none
  | .pushad => some { s with
      stack := s.regs .edi :: s.regs .esi :: s.regs .ebp :: s.esp :: s.regs .ebx :: s.regs .edx ::
        s.regs .ecx :: s.regs .eax :: s.stack }
  | .popad =>
    match s.stack with
    | edi :: esi :: ebp :: _ :: ebx :: edx :: ecx :: eax :: stack =>
      some { s with regs := registers eax ecx edx ebx ebp esi edi, stack := stack }
    | _ => none
  | .addEsp bytes =>
    let t := { s with stack := s.stack.drop (bytes / 4) }
    if bytes / 4 ≤ s.stack.length then some { t with zf := decide (t.esp = 0) } else none
  | .mov dst src => write env s (read env s src) dst
  | .movFromCr dst n => some (s.setReg dst (s.cr n))
  | .movToCr n src => some { s with cr := Function.update s.cr n (s.regs src) }
  | .alu op dst src =>
    let x := op.apply (read env s dst) (read env s src)
    write env { s with zf := decide (x = 0) } x dst
  | .inc dst =>
    let x := read env s dst + 1
    write env { s with zf := decide (x = 0) } x dst
  | .mul src =>
    let x := (s.regs .eax).setWidth 64 * (s.regs src).setWidth 64
    some ((s.setReg .eax (x.setWidth 32)).setReg .edx ((x >>> 32).setWidth 32))
  | .movAl x => some (s.setAl x)
  | .andAl x =>
    let y := Words.byteOf (s.regs .eax) 0 &&& x
    some ({ s with zf := decide (y = 0) }.setAl y)
  | .movDx x => some (s.setReg .edx (s.regs .edx &&& 0xffff0000 ||| x.setWidth 32))
  | .inAl port =>
    let r := env.inb s.world (s.port port)
    some ({ s with world := r.2 }.setAl r.1)
  | .outAl port =>
    some { s with world := env.outb s.world (s.port port) (Words.byteOf (s.regs .eax) 0) }
  | .call f => some (s.resume (env.call s.world f s.stack))
  | .callAt r => some (s.resume (env.call s.world (env.entry (env.load s.world (s.regs r))) s.stack))
  | .cli => some { s with interrupts := false }
  | .sti => some { s with interrupts := true }
  | .label _ => some s
  | _ => none

/-- How a run ends. `iretd` takes three words off the stack, and `ret` one. -/
inductive Outcome (W : Type w) where
  | resumed (eip cs eflags : U32) (s : State W)
  | returned (eip : U32) (s : State W)
  | halted (s : State W)
  | stuck
  | unfinished

variable [DecidableEq L]

/-- The instructions behind a label. -/
def after (l : L) : List (Instr F S L) → List (Instr F S L)
  | .label k :: code => if k = l then code else after l code
  | _ :: code => after l code
  | [] => []

/-- Run `rest`, of the routine `code`. -/
def exec (env : Env W F S) (code : List (Instr F S L)) :
    Nat → List (Instr F S L) → State W → Outcome W
  | 0, _, _ => .unfinished
  | _ + 1, [], _ => .stuck
  | turns + 1, i :: rest, s =>
    match i with
    | .jmp l => exec env code turns (after l code) s
    | .jz l => exec env code turns (if s.zf then after l code else rest) s
    | .jnz l => exec env code turns (if s.zf then rest else after l code) s
    | .loop l =>
      let ecx := s.regs .ecx - 1
      exec env code turns (if ecx = 0 then rest else after l code) (s.setReg .ecx ecx)
    | .hang => .halted s
    | .ret =>
      match s.stack with
      | eip :: stack => .returned eip { s with stack := stack }
      | [] => .stuck
    | .iretd =>
      match s.stack with
      | eip :: cs :: eflags :: stack => .resumed eip cs eflags { s with stack := stack }
      | _ => .stuck
    | i => (perform env s i).elim .stuck (exec env code turns rest)

end Semantics

/-! ## Words of the interrupted program -/

/-- What an interrupt finds. `code` is the error code of the exceptions that have one. -/
structure Context where
  regs : Reg → U32
  eip : U32
  cs : U32
  eflags : U32
  code : U32
  stack : List U32

inductive Value where
  | reg (r : Reg)
  | eip
  | cs
  | eflags
  | code
  | other
  deriving DecidableEq

def Value.Means (ctx : Context) : Value → U32 → Prop
  | .reg r, x => x = ctx.regs r
  | .eip, x => x = ctx.eip
  | .cs, x => x = ctx.cs
  | .eflags, x => x = ctx.eflags
  | .code, x => x = ctx.code
  | .other, _ => True

/-- The stack is that of the routine, above the interrupted one. -/
structure Shape where
  regs : Reg → Value
  stack : List Value

def Shape.set (a : Shape) (r : Reg) (v : Value) : Shape :=
  { a with regs := Function.update a.regs r v }

def Shape.value {S : Type u} (a : Shape) : Operand S → Value
  | .reg r => a.regs r
  | _ => .other

def Shape.write {S : Type u} (a : Shape) (v : Value) : Operand S → Option Shape
  | .reg r => some (a.set r v)
  | .imm _ => none
  | .sym _ => none
  | _ => some a

def Shape.resume (a : Shape) : Shape :=
  { a with
    regs := registers .other .other .other (a.regs .ebx) (a.regs .ebp) (a.regs .esi) (a.regs .edi) }

section Shapes

variable {F S L : Type u}

/-- `perform`, on shapes. -/
def Shape.perform (a : Shape) : Instr F S L → Option Shape
  | .push src => some { a with stack := a.value src :: a.stack }
  | .pop dst =>
    match a.stack with
    | v :: stack => ({ a with stack := stack } : Shape).write v dst
    | [] => none
  | .pushad => some { a with
      stack := a.regs .edi :: a.regs .esi :: a.regs .ebp :: .other :: a.regs .ebx :: a.regs .edx ::
        a.regs .ecx :: a.regs .eax :: a.stack }
  | .popad =>
    match a.stack with
    | edi :: esi :: ebp :: _ :: ebx :: edx :: ecx :: eax :: stack =>
      some ⟨registers eax ecx edx ebx ebp esi edi, stack⟩
    | _ => none
  | .addEsp bytes =>
    if bytes / 4 ≤ a.stack.length then some { a with stack := a.stack.drop (bytes / 4) } else none
  | .mov dst src => a.write (a.value src) dst
  | .movFromCr dst _ => some (a.set dst .other)
  | .movToCr _ _ => some a
  | .alu _ dst _ => a.write .other dst
  | .inc dst => a.write .other dst
  | .mul _ => some ((a.set .eax .other).set .edx .other)
  | .movAl _ => some (a.set .eax .other)
  | .andAl _ => some (a.set .eax .other)
  | .movDx _ => some (a.set .edx .other)
  | .inAl _ => some (a.set .eax .other)
  | .outAl _ => some a
  | .call _ => some a.resume
  | .callAt _ => some a.resume
  | .cli => some a
  | .sti => some a
  | .label _ => some a
  | _ => none

inductive Ending where
  | resumed (ip segment flags : Value) (a : Shape)
  | returned (ip : Value) (a : Shape)
  | halted

variable [DecidableEq L]

/-- The endings that a run can have; `none` if a run may be stuck or unfinished. Of a conditional
jump both ways are looked at. -/
def endings (code : List (Instr F S L)) : Nat → List (Instr F S L) → Shape → Option (List Ending)
  | 0, _, _ => none
  | _ + 1, [], _ => none
  | turns + 1, i :: rest, a =>
    let both (l : L) (a : Shape) : Option (List Ending) :=
      (endings code turns (after l code) a).bind fun es =>
        (endings code turns rest a).map (es ++ ·)
    match i with
    | .jmp l => endings code turns (after l code) a
    | .jz l => both l a
    | .jnz l => both l a
    | .loop l => both l (a.set .ecx .other)
    | .hang => some [.halted]
    | .ret =>
      match a.stack with
      | ip :: stack => some [.returned ip { a with stack := stack }]
      | [] => none
    | .iretd =>
      match a.stack with
      | ip :: segment :: flags :: stack =>
        some [.resumed ip segment flags { a with stack := stack }]
      | _ => none
    | i => (a.perform i).bind (endings code turns rest)

end Shapes

/-! ## Shapes tell how runs end -/

/-- The words of a shape, above the interrupted stack. -/
def Stands (ctx : Context) : List Value → List U32 → Prop
  | [], words => words = ctx.stack
  | v :: vs, words => ∃ x rest, words = x :: rest ∧ v.Means ctx x ∧ Stands ctx vs rest

structure Fits {W : Type w} (ctx : Context) (s : State W) (a : Shape) : Prop where
  regs : ∀ r, (a.regs r).Means ctx (s.regs r)
  stack : Stands ctx a.stack s.stack

def Ending.Describes {W : Type w} (ctx : Context) : Ending → Outcome W → Prop
  | .resumed ip segment flags a, .resumed ip' segment' flags' s =>
    ip.Means ctx ip' ∧ segment.Means ctx segment' ∧ flags.Means ctx flags' ∧ Fits ctx s a
  | .returned ip a, .returned ip' s => ip.Means ctx ip' ∧ Fits ctx s a
  | .halted, .halted _ => True
  | _, _ => False

section Sound

variable {W : Type w} {F S L : Type u} {ctx : Context} {s : State W} {a a' : Shape}

theorem Stands.push {vs : List Value} {words : List U32} (h : Stands ctx vs words) {v : Value}
    {x : U32} (means : v.Means ctx x) : Stands ctx (v :: vs) (x :: words) :=
  ⟨x, words, rfl, means, h⟩

theorem Stands.drop {vs : List Value} {words : List U32} (h : Stands ctx vs words) {n : Nat}
    (enough : n ≤ vs.length) : n ≤ words.length ∧ Stands ctx (vs.drop n) (words.drop n) := by
  induction n generalizing vs words with
  | zero => exact ⟨Nat.zero_le _, h⟩
  | succ n ih =>
    cases vs with
    | nil => exact absurd enough (Nat.not_succ_le_zero n)
    | cons v vs =>
      obtain ⟨x, rest, rfl, _, below⟩ := h
      obtain ⟨room, dropped⟩ := ih below (Nat.le_of_succ_le_succ enough)
      exact ⟨Nat.succ_le_succ room, dropped⟩

theorem means_other (x : U32) : Value.other.Means ctx x := trivial

theorem registers_means {eax ecx edx ebx ebp esi edi : Value} {regs : Reg → U32}
    (h : eax.Means ctx (regs .eax) ∧ ecx.Means ctx (regs .ecx) ∧ edx.Means ctx (regs .edx) ∧
      ebx.Means ctx (regs .ebx) ∧ ebp.Means ctx (regs .ebp) ∧ esi.Means ctx (regs .esi) ∧
      edi.Means ctx (regs .edi)) (r : Reg) :
    (registers eax ecx edx ebx ebp esi edi r).Means ctx (regs r) := by
  obtain ⟨h1, h2, h3, h4, h5, h6, h7⟩ := h
  cases r <;> assumption

theorem Fits.value (h : Fits ctx s a) (env : Env W F S) (src : Operand S) :
    (a.value src).Means ctx (read env s src) := by
  cases src with
  | reg r => exact h.regs r
  | imm x => trivial
  | sym name => trivial
  | mem name => trivial
  | deref r => trivial

theorem Fits.set (h : Fits ctx s a) {v : Value} {x : U32} (means : v.Means ctx x) (r : Reg) :
    Fits ctx (s.setReg r x) (a.set r v) := by
  refine ⟨fun q => ?_, h.stack⟩
  change (Function.update a.regs r v q).Means ctx ((s.setReg r x).regs q)
  by_cases same : q = r
  · subst same
    rw [Function.update_self, s.setReg_same]
    exact means
  · rw [Function.update_of_ne same, s.setReg_other x same]
    exact h.regs q

/-- Nothing else that a state holds is looked at by a shape. -/
theorem Fits.congr {t : State W} (h : Fits ctx s a) (regs : t.regs = s.regs)
    (stack : t.stack = s.stack) : Fits ctx t a :=
  ⟨fun r => regs ▸ h.regs r, stack ▸ h.stack⟩

/-- A register that something else is put into. -/
theorem Fits.forget (h : Fits ctx s a) (r : Reg) (x : U32) :
    Fits ctx (s.setReg r x) (a.set r .other) :=
  h.set (means_other x) r

theorem Fits.write (h : Fits ctx s a) (env : Env W F S) {v : Value} {x : U32}
    (means : v.Means ctx x) {dst : Operand S} (written : a.write v dst = some a') :
    ∃ s', AssemblyCode.write env s x dst = some s' ∧ Fits ctx s' a' := by
  cases dst with
  | reg r =>
    obtain rfl := Option.some.inj written
    exact ⟨_, rfl, h.set means r⟩
  | imm _ => cases written
  | sym _ => cases written
  | mem name =>
    obtain rfl := Option.some.inj written
    exact ⟨_, rfl, h.congr rfl rfl⟩
  | deref r =>
    obtain rfl := Option.some.inj written
    exact ⟨_, rfl, h.congr rfl rfl⟩

theorem Fits.resume (h : Fits ctx s a) (r : Returned W) : Fits ctx (s.resume r) a.resume :=
  ⟨registers_means ⟨trivial, trivial, trivial, h.regs .ebx, h.regs .ebp, h.regs .esi,
    h.regs .edi⟩, h.stack⟩

theorem Fits.perform (h : Fits ctx s a) (env : Env W F S) {i : Instr F S L}
    (performed : a.perform i = some a') :
    ∃ s', AssemblyCode.perform env s i = some s' ∧ Fits ctx s' a' := by
  cases i with
  | push src =>
    obtain rfl := Option.some.inj performed
    exact ⟨_, rfl, h.regs, h.stack.push (h.value env src)⟩
  | pop dst =>
    have stack := h.stack
    rw [Shape.perform] at performed
    cases words : a.stack with
    | nil =>
      rw [words] at performed
      cases performed
    | cons v vs =>
      rw [words] at performed stack
      obtain ⟨x, rest, top, means, below⟩ := stack
      have popped : Fits ctx { s with stack := rest } { a with stack := vs } := ⟨h.regs, below⟩
      obtain ⟨s', written, fits⟩ := popped.write env means performed
      refine ⟨s', ?_, fits⟩
      rw [AssemblyCode.perform, top]
      exact written
  | pushad =>
    obtain rfl := Option.some.inj performed
    refine ⟨_, rfl, h.regs, ?_⟩
    have saved := ((h.stack.push (h.regs .eax)).push (h.regs .ecx)).push (h.regs .edx)
    have esp := (saved.push (h.regs .ebx)).push (v := .other) (x := s.esp) trivial
    exact ((esp.push (h.regs .ebp)).push (h.regs .esi)).push (h.regs .edi)
  | popad =>
    rw [Shape.perform] at performed
    split at performed
    · rename_i edi esi ebp esp ebx edx ecx eax vs words
      obtain rfl := Option.some.inj performed
      have stack := h.stack
      rw [words] at stack
      obtain ⟨x1, r1, s1, m1, x2, r2, s2, m2, x3, r3, s3, m3, x4, r4, s4, _, x5, r5, s5, m5, x6,
        r6, s6, m6, x7, r7, s7, m7, x8, r8, s8, m8, below⟩ := stack
      subst s2 s3 s4 s5 s6 s7 s8
      rw [AssemblyCode.perform, s1]
      exact ⟨_, rfl, registers_means ⟨m8, m7, m6, m5, m3, m2, m1⟩, below⟩
    · cases performed
  | addEsp bytes =>
    rw [Shape.perform] at performed
    split at performed
    · rename_i enough
      obtain rfl := Option.some.inj performed
      obtain ⟨room, dropped⟩ := h.stack.drop enough
      exact ⟨_, if_pos room, h.regs, dropped⟩
    · cases performed
  | mov dst src => exact h.write env (h.value env src) performed
  | movFromCr dst n =>
    obtain rfl := Option.some.inj performed
    exact ⟨_, rfl, h.forget dst _⟩
  | alu op dst src =>
    have flagged : Fits ctx { s with
        zf := decide (op.apply (read env s dst) (read env s src) = 0) } a := h.congr rfl rfl
    exact flagged.write env (means_other _) performed
  | inc dst =>
    have flagged : Fits ctx { s with zf := decide (read env s dst + 1 = 0) } a := h.congr rfl rfl
    exact flagged.write env (means_other _) performed
  | mul src =>
    obtain rfl := Option.some.inj performed
    exact ⟨_, rfl, (h.forget .eax _).forget .edx _⟩
  | movAl x =>
    obtain rfl := Option.some.inj performed
    exact ⟨_, rfl, h.forget .eax _⟩
  | andAl x =>
    obtain rfl := Option.some.inj performed
    have flagged : Fits ctx { s with
        zf := decide (Words.byteOf (s.regs .eax) 0 &&& x = 0) } a := h.congr rfl rfl
    exact ⟨_, rfl, flagged.forget .eax _⟩
  | movDx x =>
    obtain rfl := Option.some.inj performed
    exact ⟨_, rfl, h.forget .edx _⟩
  | inAl port =>
    obtain rfl := Option.some.inj performed
    have read : Fits ctx { s with world := (env.inb s.world (s.port port)).2 } a := h.congr rfl rfl
    exact ⟨_, rfl, read.forget .eax _⟩
  | call f =>
    obtain rfl := Option.some.inj performed
    exact ⟨_, rfl, h.resume _⟩
  | callAt r =>
    obtain rfl := Option.some.inj performed
    exact ⟨_, rfl, h.resume _⟩
  | movToCr n src =>
    obtain rfl := Option.some.inj performed
    exact ⟨_, rfl, h.congr rfl rfl⟩
  | outAl port =>
    obtain rfl := Option.some.inj performed
    exact ⟨_, rfl, h.congr rfl rfl⟩
  | cli =>
    obtain rfl := Option.some.inj performed
    exact ⟨_, rfl, h.congr rfl rfl⟩
  | sti =>
    obtain rfl := Option.some.inj performed
    exact ⟨_, rfl, h.congr rfl rfl⟩
  | label l =>
    obtain rfl := Option.some.inj performed
    exact ⟨s, rfl, h⟩
  | jmp l => cases performed
  | jz l => cases performed
  | jnz l => cases performed
  | loop l => cases performed
  | hang => cases performed
  | ret => cases performed
  | iretd => cases performed

variable [DecidableEq L]

theorem both_ways {x y : Option (List Ending)} {es : List Ending}
    (h : (x.bind fun es => y.map (es ++ ·)) = some es) :
    ∃ e e', x = some e ∧ y = some e' ∧ ∀ d, d ∈ es ↔ d ∈ e ∨ d ∈ e' := by
  obtain ⟨e, here, rest⟩ := Option.bind_eq_some_iff.mp h
  obtain ⟨e', there, rfl⟩ := Option.map_eq_some_iff.mp rest
  exact ⟨e, e', here, there, fun d => List.mem_append⟩

/-- Every run ends in one of the ways that were foreseen. -/
theorem exec_endings (env : Env W F S) (code : List (Instr F S L)) {turns : Nat}
    {rest : List (Instr F S L)} (h : Fits ctx s a) {es : List Ending}
    (foreseen : endings code turns rest a = some es) :
    ∃ e ∈ es, e.Describes ctx (exec env code turns rest s) := by
  induction turns generalizing rest s a es with
  | zero => cases foreseen
  | succ turns ih =>
    cases rest with
    | nil => cases foreseen
    | cons i rest =>
      have jump {l : L} {t : State W} {b : Shape} (fits : Fits ctx t b)
          (both : ((endings code turns (after l code) b).bind fun es =>
            (endings code turns rest b).map (es ++ ·)) = some es) :
          (∃ e ∈ es, e.Describes ctx (exec env code turns (after l code) t)) ∧
            ∃ e ∈ es, e.Describes ctx (exec env code turns rest t) := by
        obtain ⟨e, e', jumped, went, split⟩ := both_ways both
        obtain ⟨d, member, describes⟩ := ih fits jumped
        obtain ⟨d', member', describes'⟩ := ih fits went
        exact ⟨⟨d, (split d).mpr (Or.inl member), describes⟩,
          d', (split d').mpr (Or.inr member'), describes'⟩
      have onward {i : Instr F S L}
          (goes : exec env code (turns + 1) (i :: rest) s =
            (perform env s i).elim .stuck (exec env code turns rest))
          (foreseen : (a.perform i).bind (endings code turns rest) = some es) :
          ∃ e ∈ es, e.Describes ctx (exec env code (turns + 1) (i :: rest) s) := by
        obtain ⟨b, performed, foreseen⟩ := Option.bind_eq_some_iff.mp foreseen
        obtain ⟨t, done, fits⟩ := h.perform env performed
        rw [goes, done]
        exact ih fits foreseen
      cases i with
      | jmp l => exact ih h foreseen
      | jz l =>
        obtain ⟨jumped, went⟩ := jump h foreseen
        rw [exec]
        split
        · exact jumped
        · exact went
      | jnz l =>
        obtain ⟨jumped, went⟩ := jump h foreseen
        rw [exec]
        split
        · exact went
        · exact jumped
      | loop l =>
        obtain ⟨jumped, went⟩ := jump (h.forget .ecx (s.regs .ecx - 1)) foreseen
        rw [exec]
        split
        · exact went
        · exact jumped
      | hang =>
        obtain rfl := Option.some.inj foreseen
        exact ⟨.halted, List.mem_singleton_self _, trivial⟩
      | ret =>
        rw [endings] at foreseen
        split at foreseen
        · rename_i ip words shape
          obtain rfl := Option.some.inj foreseen
          have stack := h.stack
          rw [shape] at stack
          obtain ⟨x, below, top, means, stands⟩ := stack
          refine ⟨_, List.mem_singleton_self _, ?_⟩
          rw [exec, top]
          exact ⟨means, h.regs, stands⟩
        · cases foreseen
      | iretd =>
        rw [endings] at foreseen
        split at foreseen
        · rename_i ip segment flags words shape
          obtain rfl := Option.some.inj foreseen
          have stack := h.stack
          rw [shape] at stack
          obtain ⟨x, r1, top, m1, y, r2, s2, m2, z, r3, s3, m3, stands⟩ := stack
          subst s2 s3
          refine ⟨_, List.mem_singleton_self _, ?_⟩
          rw [exec, top]
          exact ⟨m1, m2, m3, h.regs, stands⟩
        · cases foreseen
      | _ => exact onward rfl foreseen

end Sound

/-! ## Interrupts -/

/-- What the processor leaves to a routine when it interrupts a program through a gate that turns
interrupts off. -/
def interrupted {W : Type w} (withCode : Bool) (ctx : Context) (s : State W) : State W :=
  { s with
    regs := ctx.regs
    interrupts := false
    stack := (if withCode then [ctx.code] else []) ++ ctx.eip :: ctx.cs :: ctx.eflags :: ctx.stack }

def frame (withCode : Bool) : Shape :=
  ⟨.reg, (if withCode then [.code] else []) ++ [.eip, .cs, .eflags]⟩

/-- The routine goes back to the interrupted program, which finds its registers and its stack as
they were. -/
def Resumes {W : Type w} (ctx : Context) (o : Outcome W) : Prop :=
  ∃ s, o = .resumed ctx.eip ctx.cs ctx.eflags s ∧ s.regs = ctx.regs ∧ s.stack = ctx.stack

def Halts {W : Type w} (o : Outcome W) : Prop := ∃ s, o = .halted s

def allRegs : List Reg := [.eax, .ecx, .edx, .ebx, .ebp, .esi, .edi]

/-- The three words that `iretd` takes are these, these words are left above the interrupted stack,
and the registers hold these. -/
def Ending.resumesWith (ip segment flags : Value) (left : List Value) (regs : Reg → Value) :
    Ending → Bool
  | .resumed ip' segment' flags' a =>
    decide (ip' = ip ∧ segment' = segment ∧ flags' = flags ∧ a.stack = left) &&
      allRegs.all fun r => decide (a.regs r = regs r)
  | _ => false

def Ending.restores : Ending → Bool := Ending.resumesWith .eip .cs .eflags [] .reg

def Ending.halts : Ending → Bool
  | .halted => true
  | _ => false

section Interrupts

variable {W : Type w} {F S L : Type u} [DecidableEq L]

/-- Whatever a run does, it ends like this. -/
def Always (p : Ending → Bool) (withCode : Bool) (code : List (Instr F S L)) : Bool :=
  (endings code (code.length + 1) code (frame withCode)).elim false fun es => es.all p

/-- A routine without a loop runs once over its code. -/
def service (env : Env W F S) (withCode : Bool) (code : List (Instr F S L)) (ctx : Context)
    (s : State W) : Outcome W :=
  exec env code (code.length + 1) code (interrupted withCode ctx s)

variable {env : Env W F S} {withCode : Bool} {code : List (Instr F S L)} {p : Ending → Bool}

theorem interrupted_fits (withCode : Bool) (ctx : Context) (s : State W) :
    Fits ctx (interrupted withCode ctx s) (frame withCode) := by
  refine ⟨fun r => rfl, ?_⟩
  have three : Stands ctx [.eip, .cs, .eflags] (ctx.eip :: ctx.cs :: ctx.eflags :: ctx.stack) :=
    ⟨_, _, rfl, rfl, _, _, rfl, rfl, _, _, rfl, rfl, rfl⟩
  cases withCode with
  | false => exact three
  | true => exact three.push rfl

theorem service_describes (always : Always p withCode code = true) (env : Env W F S) (ctx : Context)
    (s : State W) : ∃ e, p e = true ∧ e.Describes ctx (service env withCode code ctx s) := by
  rw [Always] at always
  cases foreseen : endings code (code.length + 1) code (frame withCode) with
  | none =>
    rw [foreseen] at always
    cases always
  | some es =>
    rw [foreseen] at always
    obtain ⟨e, member, describes⟩ := exec_endings env code (interrupted_fits withCode ctx s) foreseen
    exact ⟨e, List.all_eq_true.mp always e member, describes⟩

theorem Ending.describes_resumed {ctx : Context} {ip segment flags : Value} {a : Shape}
    {o : Outcome W} (h : (Ending.resumed ip segment flags a).Describes ctx o) :
    ∃ x y z t, o = .resumed x y z t ∧ ip.Means ctx x ∧ segment.Means ctx y ∧
      flags.Means ctx z ∧ Fits ctx t a := by
  cases o with
  | resumed x y z t => exact ⟨x, y, z, t, rfl, h⟩
  | _ => exact h.elim

theorem Ending.describes_halted {ctx : Context} {o : Outcome W} (h : Ending.halted.Describes ctx o) :
    Halts o := by
  cases o with
  | halted t => exact ⟨t, rfl⟩
  | _ => exact h.elim

theorem service_resumesWith {ip segment flags : Value} {left : List Value} {regs : Reg → Value}
    (always : Always (Ending.resumesWith ip segment flags left regs) withCode code = true)
    (env : Env W F S) (ctx : Context) (s : State W) :
    ∃ x y z t, service env withCode code ctx s = .resumed x y z t ∧ ip.Means ctx x ∧
      segment.Means ctx y ∧ flags.Means ctx z ∧ Fits ctx t ⟨regs, left⟩ := by
  obtain ⟨e, resumes, describes⟩ := service_describes always env ctx s
  cases e with
  | resumed ip' segment' flags' a =>
    obtain ⟨same, all⟩ := Bool.and_eq_true_iff.mp resumes
    obtain ⟨rfl, rfl, rfl, rfl⟩ := of_decide_eq_true same
    obtain ⟨x, y, z, t, ended, means, means', means'', fits⟩ := Ending.describes_resumed describes
    refine ⟨x, y, z, t, ended, means, means', means'', fun r => ?_, fits.stack⟩
    have here : decide (a.regs r = regs r) = true :=
      List.all_eq_true.mp all r (by cases r <;> decide)
    have holds : a.regs r = regs r := of_decide_eq_true here
    change (regs r).Means ctx (t.regs r)
    rw [← holds]
    exact fits.regs r
  | returned ip a => cases resumes
  | halted => cases resumes

theorem service_resumes (always : Always Ending.restores withCode code = true) (env : Env W F S)
    (ctx : Context) (s : State W) : Resumes ctx (service env withCode code ctx s) := by
  obtain ⟨x, y, z, t, ended, rfl, rfl, rfl, fits⟩ := service_resumesWith always env ctx s
  exact ⟨t, ended, funext fits.regs, fits.stack⟩

theorem service_halts (always : Always Ending.halts withCode code = true) (env : Env W F S)
    (ctx : Context) (s : State W) : Halts (service env withCode code ctx s) := by
  obtain ⟨e, halts, describes⟩ := service_describes always env ctx s
  cases e with
  | resumed ip segment flags a => cases halts
  | returned ip a => cases halts
  | halted => exact Ending.describes_halted describes

end Interrupts

end AssemblyCode
