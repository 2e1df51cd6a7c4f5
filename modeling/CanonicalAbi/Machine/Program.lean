import CanonicalAbi.Stream.Checked

/-!
# Programs

The backend that records a stream as a program. Operands are registers, each of which is set by one
step.
-/

namespace CanonicalAbi

/-- The number of a register, which is set once. -/
abbrev Reg := Nat

mutual

/-- One instruction with its registers and blocks, or the provision of memory for the time of the
run. -/
inductive Step where
  | exec (instr : Instr) (args outs : List Reg) (blocks : List Block)
  | scratch (size align : UInt32) (out : Reg)

/-- Steps that an instruction runs, and the registers with what they yield. -/
inductive Block where
  | mk (steps : List Step) (results : List Reg)

end

def Block.steps : Block → List Step
  | mk steps _ => steps

def Block.results : Block → List Reg
  | mk _ results => results

/-- A program in the making: the steps of the body and of open blocks, the last one first, and the
finished blocks that no instruction owns yet. -/
structure Recording where
  body : List Step := []
  opened : List (List Step) := []
  finished : List Block := []
  registers : Nat := 0

namespace Recording

def empty : Recording := {}

def addStep (r : Recording) (s : Step) : Recording :=
  match r.opened with
  | [] => { r with body := s :: r.body }
  | steps :: outer => { r with opened := (s :: steps) :: outer }

/-- Records an instruction, which sets new registers and owns the blocks that were finished last. -/
def emit (i : Instr) (args : List Reg) (r : Recording) : List Reg × Recording :=
  let outs := List.range' r.registers i.results
  let blocks := (r.finished.take i.blocks).reverse
  (outs, { r.addStep (.exec i args outs blocks) with
    finished := r.finished.drop i.blocks, registers := r.registers + i.results })

def openBlock (r : Recording) : Recording := { r with opened := [] :: r.opened }

def closeBlock (results : List Reg) (r : Recording) : Recording :=
  match r.opened with
  | [] => r
  | steps :: outer =>
    { r with opened := outer, finished := .mk steps.reverse results :: r.finished }

def returnPointer (size align : UInt32) (r : Recording) : Reg × Recording :=
  (r.registers, { r.addStep (.scratch size align r.registers) with registers := r.registers + 1 })

def backend (movesRaw : RawRule) : Backend Recording Reg where
  emit i args r :=
    let (outs, r) := r.emit i args
    (.ok outs, r)
  openBlock := openBlock
  closeBlock := closeBlock
  returnPointer := returnPointer
  movesRaw := movesRaw

end Recording

/-- A recorded adapter. -/
structure Program where
  function : FunctionShape
  dir : Direction
  mode : Mode
  body : Block
  registers : Nat

namespace Program

def stepCount (p : Program) : Nat := p.body.steps.length

/-- Whether lists of a type are lists of bytes, the only ones that a running program can move as
such. -/
def isByte : Option Shape → Bool
  | some (.scalar .u8) => true
  | _ => false

def ofRecording (f : FunctionShape) (dir : Direction) (mode : Mode) (r : Recording) :
    Except Failure Program :=
  if r.opened.isEmpty ∧ r.finished.isEmpty then
    .ok ⟨f, dir, mode, .mk r.body.reverse [], r.registers⟩
  else .error (.unbalancedBlock .eval "recorded stream left blocks open")

def ofChecked (s : Subject) (dir : Direction) (mode : Mode) (t : Checked Recording) :
    Except Failure Program × List LogEntry :=
  match t.result, s.function with
  | .error f, _ => (.error f, t.log)
  | .ok _, none => (.error (.invalidInput .validate "nil function"), t.log)
  | .ok _, some f =>
    match ofRecording (s.shapes.function f) dir mode t.backend with
    | .error failure => (.error failure, t.log)
    | .ok p => (.ok p, .compile f.name dir mode p.stepCount p.registers :: t.log)

/-- The program of a call, recorded, if its function is valid. -/
def compile (dir : Direction) (mode : Mode) (movesRaw : RawRule) (s : Subject) :
    Except Failure Program × List LogEntry :=
  ofChecked s dir mode
    (Generator.checked { dir, mode } (Recording.backend movesRaw) s Recording.empty)

/-- The program that frees the results of an export. -/
def compilePostReturn (movesRaw : RawRule) (s : Subject) :
    Except Failure Program × List LogEntry :=
  ofChecked s .exported .liftArgs
    (Generator.checkedPostReturn (Recording.backend movesRaw) "" s Recording.empty)

end Program

end CanonicalAbi
