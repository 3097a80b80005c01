import HolyRust.Capabilities.Registry
import HolyRust.Capabilities.Tokens
import HolyRust.Library.Runs

/-!
Pin leases (`PinGuard` in `capabilities/tokens.rs`) over the port contract that the file
states: a write of DATA_SET sets the pins of its mask, a write of DATA_CLR clears them,
DATA_OUT is the output latch and DIR the direction mask.

`1u32 << N` is a constant of the lease's type, so a lease of a pin past the word does not
compile; `N` is a `Fin 32`.

* `holds_step` — an operation keeps every line of both ports as its pin remembers it.
* `accessed_step` — the registers it accesses, in order.
* `leases_are_pins` — both over any operations of any leases, in any order.
-/

namespace HolyRust.Pins

open Registry (CapId addrToCapId)

/-! ### The ports -/

inductive GpioPort where
  | gpioA | gpioB
deriving DecidableEq, Repr

/-- `T::BASE`. -/
def GpioPort.base : GpioPort → Word
  | .gpioA => 0x40020000
  | .gpioB => 0x40020400

/-- The resource whose capability a lease borrows. -/
def GpioPort.resource : GpioPort → Tokens.HardwareResource
  | .gpioA => .gpioA
  | .gpioB => .gpioB

def GpioPort.capId : GpioPort → CapId
  | .gpioA => .gpioA
  | .gpioB => .gpioB

theorem index_capId (p : GpioPort) : p.capId.index = p.resource.resourceId := by
  cases p <;> rfl

def dataSet : Word := 0x00
def dataClr : Word := 0x04
def dataOut : Word := 0x08
def dir : Word := 0x10

/-- A port as the contract has it. -/
structure Port where
  latch : Word
  dir : Word

/-- Both ports, and the addresses that were accessed. -/
structure Board where
  ports : GpioPort → Port
  accessed : List Word

/-- The port whose block of 1K an address is in, and where in the block. -/
def decode (addr : Word) : Option (GpioPort × Word) :=
  if addr - GpioPort.gpioA.base < 0x400 then some (.gpioA, addr - GpioPort.gpioA.base)
  else if addr - GpioPort.gpioB.base < 0x400 then some (.gpioB, addr - GpioPort.gpioB.base)
  else none

/-- What a register reads as. -/
def Port.read (p : Port) (reg : Word) : Word :=
  if reg = dataOut then p.latch else if reg = Pins.dir then p.dir else 0

/-- What a write does to a port. -/
def Port.write (p : Port) (reg value : Word) : Port :=
  if reg = dataSet then { p with latch := p.latch ||| value }
  else if reg = dataClr then { p with latch := p.latch &&& ~~~value }
  else if reg = Pins.dir then { p with dir := value }
  else p

namespace Board

def peekU32 (addr : Word) (b : Board) : Word × Board :=
  let value := match decode addr with
    | some (p, reg) => (b.ports p).read reg
    | none => 0
  (value, { b with accessed := b.accessed ++ [addr] })

def pokeU32 (addr value : Word) (b : Board) : Board where
  ports := match decode addr with
    | some (p, reg) => Function.update b.ports p ((b.ports p).write reg value)
    | none => b.ports
  accessed := b.accessed ++ [addr]

end Board

/-- `reg_set_bit`. -/
def regSetBit (addr : Word) (bit : Fin 32) (b : Board) : Board :=
  let (old, b) := b.peekU32 addr
  b.pokeU32 addr (old ||| 1#32 <<< bit.val)

/-! ### The operations of a lease -/

/-- `PinGuard<T, N>`. -/
structure PinGuard where
  port : GpioPort
  pin : Fin 32
deriving DecidableEq, Repr

namespace PinGuard

variable (g : PinGuard)

/-- `MASK`. -/
def mask : Word := 1#32 <<< g.pin.val

def enableOutput (b : Board) : Board := regSetBit (g.port.base + dir) g.pin b

/-- Linear consume-and-return set-high. -/
def setHighLinear (b : Board) : Board :=
  (g.enableOutput b).pokeU32 (g.port.base + dataSet) g.mask

/-- Linear consume-and-return set-low. -/
def setLowLinear (b : Board) : Board :=
  (g.enableOutput b).pokeU32 (g.port.base + dataClr) g.mask

/-- `OutputPin::set_high`. -/
def setHigh (b : Board) : Board := b.pokeU32 (g.port.base + dataSet) g.mask

/-- `OutputPin::set_low`. -/
def setLow (b : Board) : Board := b.pokeU32 (g.port.base + dataClr) g.mask

/-- Read back the output latch bit for this pin. -/
def level (b : Board) : Bool × Board :=
  let (out, b) := b.peekU32 (g.port.base + dataOut)
  (out &&& g.mask != 0#32, b)

end PinGuard

inductive Action where
  | setHighLinear | setLowLinear | setHigh | setLow | level
deriving DecidableEq, Repr

/-- The registers an operation accesses, in order. -/
def Action.registers : Action → List Word
  | .setHighLinear => [dir, dir, dataSet]
  | .setLowLinear => [dir, dir, dataClr]
  | .setHigh => [dataSet]
  | .setLow => [dataClr]
  | .level => [dataOut]

/-- An operation on a lease, with the answers so far. -/
def step (s : Board × List Bool) (op : PinGuard × Action) : Board × List Bool :=
  match op.2 with
  | .setHighLinear => (op.1.setHighLinear s.1, s.2)
  | .setLowLinear => (op.1.setLowLinear s.1, s.2)
  | .setHigh => (op.1.setHigh s.1, s.2)
  | .setLow => (op.1.setLow s.1, s.2)
  | .level =>
      let (answer, b) := op.1.level s.1
      (b, s.2 ++ [answer])

/-! ### Pins that remember -/

/-- The pins, each on its own: what they were driven to last, and which are outputs. -/
structure Lines where
  high : PinGuard → Bool
  output : PinGuard → Bool
  answers : List Bool

namespace Lines

def drive (l : Lines) (g : PinGuard) (v : Bool) : Lines :=
  { l with high := Function.update l.high g v }

def enable (l : Lines) (g : PinGuard) : Lines :=
  { l with output := Function.update l.output g true }

def step (l : Lines) (op : PinGuard × Action) : Lines :=
  match op.2 with
  | .setHighLinear => (l.enable op.1).drive op.1 true
  | .setLowLinear => (l.enable op.1).drive op.1 false
  | .setHigh => l.drive op.1 true
  | .setLow => l.drive op.1 false
  | .level => { l with answers := l.answers ++ [l.high op.1] }

end Lines

/-- The ports hold what the pins remember. -/
structure Holds (s : Board × List Bool) (l : Lines) : Prop where
  high : ∀ g : PinGuard, ((s.1.ports g.port).latch.getLsbD g.pin) = l.high g
  output : ∀ g : PinGuard, ((s.1.ports g.port).dir.getLsbD g.pin) = l.output g
  answers : s.2 = l.answers

section Registers

variable (g : PinGuard) (b : Board)

theorem decode_register {reg : Word} (h : reg < 0x400) (p : GpioPort) :
    decode (p.base + reg) = some (p, reg) := by
  unfold decode
  cases p with
  | gpioA =>
      have hreg : GpioPort.gpioA.base + reg - GpioPort.gpioA.base = reg := by
        rw [BitVec.add_comm, BitVec.add_sub_cancel]
      rw [hreg, if_pos h]
  | gpioB =>
      have hreg : GpioPort.gpioB.base + reg - GpioPort.gpioB.base = reg := by
        rw [BitVec.add_comm, BitVec.add_sub_cancel]
      have hother : ¬ GpioPort.gpioB.base + reg - GpioPort.gpioA.base < 0x400 := by
        simp only [GpioPort.base] at h ⊢
        bv_omega
      rw [if_neg hother, hreg, if_pos h]

/-- The bits of a mask. -/
theorem getLsbD_mask (i : Fin 32) : g.mask.getLsbD i = decide (i = g.pin) := by
  have hi := i.isLt
  have hp := g.pin.isLt
  rw [PinGuard.mask, ← BitVec.twoPow_eq, BitVec.getLsbD_twoPow]
  simp only [Fin.ext_iff]
  by_cases h : i.val = g.pin.val
  · simp [h, hp]
  · simp [h, Ne.symm h]

theorem ports_poke {reg : Word} (h : reg < 0x400) (p : GpioPort) (value : Word) :
    (b.pokeU32 (p.base + reg) value).ports =
      Function.update b.ports p ((b.ports p).write reg value) := by
  simp only [Board.pokeU32, decode_register h]

theorem peek_fst {reg : Word} (h : reg < 0x400) (p : GpioPort) :
    (b.peekU32 (p.base + reg)).1 = (b.ports p).read reg := by
  simp only [Board.peekU32, decode_register h]

/-- Enabling reads DIR and writes it back with the pin's bit. -/
theorem ports_enableOutput : (g.enableOutput b).ports =
    Function.update b.ports g.port
      { b.ports g.port with dir := (b.ports g.port).dir ||| g.mask } := by
  unfold PinGuard.enableOutput regSetBit
  dsimp only
  rw [ports_poke _ (by decide), peek_fst _ (by decide)]
  rfl

end Registers

section Runs

variable {b : Board} {as : List Bool} {l : Lines} {g : PinGuard}

/-- The register that drives a pin to a level. -/
def driver (v : Bool) : Word := if v then dataSet else dataClr

/-- The latch behind a write of a mask. -/
theorem latch_driver (p : Port) (v : Bool) (g : PinGuard) (i : Fin 32) :
    (p.write (driver v) g.mask).latch.getLsbD i = if i = g.pin then v else p.latch.getLsbD i := by
  have hi := i.isLt
  have hmask := getLsbD_mask g i
  cases v with
  | true =>
      rw [show (p.write (driver true) g.mask).latch = p.latch ||| g.mask from rfl,
        BitVec.getLsbD_or, hmask]
      by_cases hpin : i = g.pin <;> simp [hpin]
  | false =>
      rw [show (p.write (driver false) g.mask).latch = p.latch &&& ~~~g.mask from rfl,
        BitVec.getLsbD_and, BitVec.getLsbD_not, hmask]
      by_cases hpin : i = g.pin <;> simp [hpin, hi]

/-- A pin's register bits where one pin's bit has been changed. -/
theorem update_bit {α : Type} {ports : GpioPort → Port} {q : Port} {B : Port → Fin 32 → α}
    {f : PinGuard → α} {v : α} (hf : ∀ g, B (ports g.port) g.pin = f g)
    (hq : ∀ i, B q i = if i = g.pin then v else B (ports g.port) i) (g' : PinGuard) :
    B (Function.update ports g.port q g'.port) g'.pin = Function.update f g v g' := by
  obtain ⟨port, pin⟩ := g'
  by_cases hport : port = g.port
  · subst hport
    rw [Function.update_self, hq]
    by_cases hpin : pin = g.pin
    · subst hpin
      rw [if_pos rfl]
      exact (Function.update_self g v f).symm
    · rw [if_neg hpin, Function.update_of_ne (fun h => hpin (congrArg PinGuard.pin h))]
      exact hf ⟨g.port, pin⟩
  · rw [Function.update_of_ne hport,
      Function.update_of_ne (fun h => hport (congrArg PinGuard.port h))]
    exact hf ⟨port, pin⟩

theorem holds_drive (h : Holds (b, as) l) (v : Bool) :
    Holds (b.pokeU32 (g.port.base + driver v) g.mask, as) (l.drive g v) := by
  have hreg : driver v < 0x400 := by cases v <;> decide
  have hdir : ((b.ports g.port).write (driver v) g.mask).dir = (b.ports g.port).dir := by
    cases v <;> rfl
  refine ⟨fun g' => ?_, fun g' => ?_, h.answers⟩
  · rw [ports_poke b hreg]
    exact update_bit (B := fun p i => p.latch.getLsbD i) h.high (latch_driver _ v g) g'
  · rw [ports_poke b hreg]
    refine Eq.trans ?_ (h.output g')
    by_cases hport : g'.port = g.port
    · rw [hport, Function.update_self, hdir]
    · rw [Function.update_of_ne hport]

theorem holds_enable (h : Holds (b, as) l) : Holds (g.enableOutput b, as) (l.enable g) := by
  refine ⟨fun g' => ?_, fun g' => ?_, h.answers⟩
  · rw [ports_enableOutput]
    refine Eq.trans ?_ (h.high g')
    by_cases hport : g'.port = g.port
    · rw [hport, Function.update_self]
    · rw [Function.update_of_ne hport]
  · rw [ports_enableOutput]
    refine update_bit (B := fun p i => p.dir.getLsbD i) h.output (fun i => ?_) g'
    rw [BitVec.getLsbD_or, getLsbD_mask]
    by_cases hpin : i = g.pin <;> simp [hpin]

/-- The test of `level`. -/
theorem level_eq (g : PinGuard) (b : Board) :
    (g.level b).1 = (b.ports g.port).latch.getLsbD g.pin := by
  have hread : (b.peekU32 (g.port.base + dataOut)).1 = (b.ports g.port).latch :=
    peek_fst b (by decide) g.port
  unfold PinGuard.level
  dsimp only
  rw [hread, PinGuard.mask, bne, Registry.and_mask_beq_zero _ g.pin.isLt, Bool.not_not]

theorem holds_step {s : Board × List Bool} (h : Holds s l) (op : PinGuard × Action) :
    Holds (step s op) (l.step op) := by
  obtain ⟨g, action⟩ := op
  obtain ⟨b, as⟩ := s
  cases action with
  | setHighLinear => exact holds_drive (holds_enable h) true
  | setLowLinear => exact holds_drive (holds_enable h) false
  | setHigh => exact holds_drive h true
  | setLow => exact holds_drive h false
  | level =>
      refine ⟨h.high, h.output, ?_⟩
      show as ++ [(g.level b).1] = l.answers ++ [l.high g]
      rw [level_eq, ← h.high g, ← show as = l.answers from h.answers]

/-- The lines of a board, as its registers have them. -/
def Board.lines (b : Board) : Lines where
  high g := (b.ports g.port).latch.getLsbD g.pin
  output g := (b.ports g.port).dir.getLsbD g.pin
  answers := []

theorem holds_lines (b : Board) : Holds (b, []) b.lines :=
  ⟨fun _ => rfl, fun _ => rfl, rfl⟩

theorem accessed_enableOutput (b : Board) : (g.enableOutput b).accessed =
    b.accessed ++ [g.port.base + dir, g.port.base + dir] := by
  simp [PinGuard.enableOutput, regSetBit, Board.peekU32, Board.pokeU32]

theorem accessed_step (s : Board × List Bool) (op : PinGuard × Action) :
    (step s op).1.accessed = s.1.accessed ++ op.2.registers.map (op.1.port.base + ·) := by
  obtain ⟨g, action⟩ := op
  cases action with
  | setHighLinear =>
      simp [step, PinGuard.setHighLinear, Board.pokeU32, accessed_enableOutput, Action.registers]
  | setLowLinear =>
      simp [step, PinGuard.setLowLinear, Board.pokeU32, accessed_enableOutput, Action.registers]
  | setHigh => rfl
  | setLow => rfl
  | level => rfl

/-- On ARM the address map guards each of these registers with the port's capability. -/
theorem addrToCapId_registers (port : GpioPort) (action : Action) :
    ∀ reg ∈ action.registers, addrToCapId .arm (port.base + reg) = some port.capId := by
  intro reg hreg
  cases action <;> simp only [Action.registers, List.mem_cons, List.not_mem_nil, or_false] at hreg
  all_goals
    obtain rfl | rfl | rfl := hreg <;> cases port <;> rfl

theorem accessed_run (ops : List (PinGuard × Action)) (s : Board × List Bool) :
    (Runs.run step s ops).1.accessed = s.1.accessed ++
      ops.flatMap fun op => op.2.registers.map (op.1.port.base + ·) := by
  induction ops generalizing s with
  | nil => simp
  | cons op ops ih =>
      rw [Runs.run_cons, ih, accessed_step, List.append_assoc, List.flatMap_cons]

/-- Leases of any pins of both ports, used in any order, are pins that remember what
they were driven to and answer with it, a pin is an output where it was one or a linear
operation made it one, and the addresses are registers of the leases' own ports, each
guarded by the capability its lease borrows. -/
theorem leases_are_pins (ops : List (PinGuard × Action)) (b : Board) :
    Holds (Runs.run step (b, []) ops) (Runs.run Lines.step b.lines ops) ∧
      ∃ addrs, (Runs.run step (b, []) ops).1.accessed = b.accessed ++ addrs ∧
        ∀ addr ∈ addrs, ∃ op ∈ ops, ∃ cap, addrToCapId .arm addr = some cap ∧
          cap.index = op.1.port.resource.resourceId := by
  refine ⟨?_, _, accessed_run ops (b, []), fun addr haddr => ?_⟩
  · exact Runs.run_related (R := Holds) (C := fun _ _ => True)
      (fun s l op h _ => holds_step h op) (holds_lines b) fun _ _ _ _ => trivial
  · obtain ⟨op, hop, haddr⟩ := List.mem_flatMap.mp haddr
    obtain ⟨reg, hreg, rfl⟩ := List.mem_map.mp haddr
    exact ⟨op, hop, _, addrToCapId_registers _ _ reg hreg, index_capId _⟩

end Runs

end HolyRust.Pins
