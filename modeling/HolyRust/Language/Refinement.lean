import HolyRust.Compiler.Permanence
import HolyRust.Drivers.Output
import HolyRust.Language.Parsing
import HolyRust.Language.World
import HolyRust.System.Confinement

/-!
The REPL refines the language's machine.

* `Models img m w` — the machine's tables hold what the world has bound and defined,
  and memory, log and console are the world's.
* `feedLine_models` — a line that spells a statement keeps it.
* `session_refines` — so does a session of such lines from power-up.
-/

namespace HolyRust.Language

open HolyRust.Parser (Env Frame)
open Syntax (Eval evalBody)
open HolyRust.Repl
open HolyRust.Sessions (Reachable)
open Compiler (TablesOk SameTables Defines)
open Native (MachineAligned)
open Emitter (Loads)
open Registry (Permitted)
open SymbolTable (Filled)
open Runs (EveryStep)

/-! ### The relation -/

/-- The live functions of the table. -/
def liveSlots (c : Compiler) : Finset (Fin maxFns) :=
  Finset.univ.filter fun i => c.fnAllocated i = true

structure Models (img : Image) (m : Machine) (w : World) : Prop where
  reachable : Reachable img.target img.code m.comp
  vars : Filled.Faithful ⟨m.comp.symbols, w.vars⟩
  fns : ∀ name, m.comp.accessesOf img.code name = w.fns.lookup name
  count : (liveSlots m.comp).card = w.fns.length
  bus : m.vm.bus = w.bus
  audit : m.audit = w.audit
  console : m.console = w.console

section Tables

variable {symbols : SymbolTable} {log : List (List Byte × Word)}

theorem value?_eq_lookup (h : Filled.Faithful ⟨symbols, log⟩) (name : List Byte) :
    symbols.value? name = log.lookup name := by
  refine Option.ext fun v => ?_
  rw [SymbolTable.value?, SymbolTable.lookupSymbol_eq_lookup, Option.join_some,
    h.findable.lookup_eq_some_iff]
  exact h.stored_iff name v

/-- A binding fits if its name is bound or fewer than 32 names are. -/
theorem hasRoom_iff (h : Filled.Faithful ⟨symbols, log⟩) (id : List Byte) :
    symbols.HasRoom id ↔ id ∈ (log.map Prod.fst).toFinset ∨
      (log.map Prod.fst).toFinset.card < symbolSlots := by
  have hfull := h.findable.insert_eq_none_iff SymbolTable.mem_probeOrder h.mem_names_iff
    (k := id) (v := 0)
  have hcard := h.findable.card_used h.mem_names_iff
  have hle := Finset.card_le_univ (Finset.univ.filter fun i => (symbols.slots i).isSome = true)
  rw [hcard, Fintype.card_fin] at hle
  rw [Fintype.card_fin, OpenAddressing.insert, Option.map_eq_none_iff] at hfull
  rw [hasRoom_iff_search, Option.isSome_iff_ne_none, ne_eq, hfull, not_and_or, not_not]
  exact or_congr_right ⟨fun hne => lt_of_le_of_ne hle hne, ne_of_lt⟩

/-- An insertion is a binding. -/
theorem faithful_insert (h : Filled.Faithful ⟨symbols, log⟩) {name : NameBuf} {v : Word}
    {t : SymbolTable} (hins : symbols.insertSymbol name v = some (.ok t)) :
    Filled.Faithful ⟨t, (name.asSlice, v) :: log⟩ := by
  have hnext := h.insert (name, v)
  rcases symbols.insertInPlace_cases name v with ⟨_, hnone, _⟩ | ⟨t', _, hsome, hplace⟩
  · cases hnone.symm.trans hins
  · cases hsome.symm.trans hins
    rwa [Filled.insert, hplace] at hnext

end Tables

section Models

variable {img : Image} {m : Machine} {w : World}

/-- What the parser sees is what the language says. -/
theorem Models.fits (h : Models img m w) : (w.context img.target).Fits (m.env img) m.comp where
  scope := by
    have hlookup : m.comp.symbols.value? = fun name => w.vars.lookup name :=
      funext (value?_eq_lookup h.vars)
    have hcallee : m.comp.accessesOf img.code = fun name => w.fns.lookup name := funext h.fns
    have hreg : m.registry img.target = w.registry img.target := by
      rw [Machine.registry, World.registry, h.bus]
    simp only [Env.scope, Machine.env, hlookup, hcallee, hreg, World.context]
  room id := by
    rw [hasRoom_iff h.vars]
    exact decide_eq_true_iff
  slot := by
    have hfree : (liveSlots m.comp).card < maxFns ↔ ∃ i, i ∉ liveSlots m.comp := by
      rw [← not_forall, ← Finset.eq_univ_iff_forall, ← ne_eq, ← Finset.card_lt_iff_ne_univ,
        Fintype.card_fin]
    have hslot : (w.context img.target).hasSlot = true ↔ w.fns.length < maxFns :=
      decide_eq_true_iff
    rw [hslot, ← h.count, hfree]
    simp [liveSlots, Compiler.fnAllocated]

theorem Models.put (h : Models img m w) (text : List Byte) :
    Models img (m.put text) (w.put text) :=
  { h with console := congrArg (· ++ text) h.console }

theorem Models.setBus (h : Models img m w) (b : Bus) : Models img (m.setBus b) (w.setBus b) :=
  { h with bus := rfl }

theorem Models.registry (h : Models img m w) (t : Target) : m.registry t = w.registry t := by
  rw [Machine.registry, World.registry, h.bus]

end Models

/-! ### Definitions -/

section Definitions

variable {t : Target} {code : CodeMap} {c c' : Compiler} {name : NameBuf} {ws : List Word}

theorem mem_liveSlots {i : Fin maxFns} : i ∈ liveSlots c ↔ c.fnAllocated i = true := by
  simp [liveSlots]

theorem liveSlots_of_same {c c' : Compiler} (h : SameTables c c') : liveSlots c' = liveSlots c := by
  ext i
  rw [mem_liveSlots, mem_liveSlots, Compiler.fnAllocated, h.fnName, Compiler.fnAllocated]

/-- A live slot is found under its name. -/
theorem bodyOf_isSome {i : Fin maxFns} (h : c.fnAllocated i = true) :
    (c.bodyOf (c.fnName i).asSlice).isSome = true := by
  rw [Compiler.bodyOf, Option.isSome_map, Compiler.findFn, List.find?_isSome]
  exact ⟨i, List.mem_finRange i, by simp [h, NameBuf.eqBytes]⟩

theorem exists_live_of_bodyOf {other : List Byte} (h : (c.bodyOf other).isSome = true) :
    ∃ i, c.fnAllocated i = true ∧ (c.fnName i).asSlice = other := by
  rw [Compiler.bodyOf, Option.isSome_map, Compiler.findFn, List.find?_isSome] at h
  obtain ⟨i, _, hi⟩ := h
  exact ⟨i, by simpa [NameBuf.eqBytes] using hi⟩

/-- The slot a definition takes was free: otherwise the function in it would be gone. -/
theorem card_liveSlots_define (hreach : Reachable t code c)
    (hdef : Defines c c' name.asSlice ws) (hstores : Sessions.StoresName c c' name) :
    (liveSlots c').card = (liveSlots c).card + 1 := by
  obtain ⟨hnew, i, hnames⟩ := hstores
  have hbody : (c'.bodyOf name.asSlice).isSome = true := by rw [hdef.body]; rfl
  have hlive' : ∀ j, j ≠ i → c'.fnAllocated j = c.fnAllocated j := by
    intro j hj
    rw [Compiler.fnAllocated, hnames, if_neg hj, Compiler.fnAllocated]
  have hfree : i ∉ liveSlots c := by
    intro hi
    rw [mem_liveSlots] at hi
    have hold := bodyOf_isSome hi
    have hne : (c.fnName i).asSlice ≠ name.asSlice := by
      intro heq
      rw [heq, hdef.fresh] at hold
      cases hold
    rw [← hdef.others _ hne] at hold
    obtain ⟨j, hj, hname⟩ := exists_live_of_bodyOf hold
    have hji : j ≠ i := by
      rintro rfl
      rw [hnames, if_pos rfl] at hname
      exact hne hname.symm
    rw [hlive' j hji] at hj
    rw [hnames, if_neg hji] at hname
    exact hji (hreach.distinctNames j i hj hi hname)
  have hi' : c'.fnAllocated i = true := by
    obtain ⟨j, hj, hname⟩ := exists_live_of_bodyOf hbody
    by_cases hji : j = i
    · exact hji ▸ hj
    · rw [hlive' j hji] at hj
      rw [hnames, if_neg hji] at hname
      have hold := bodyOf_isSome hj
      rw [hname, hdef.fresh] at hold
      cases hold
  have hslots : liveSlots c' = insert i (liveSlots c) := by
    ext j
    rw [Finset.mem_insert, mem_liveSlots, mem_liveSlots]
    by_cases hji : j = i
    · simp [hji, hi']
    · simp [hji, hlive' j hji]
  rw [hslots, Finset.card_insert_of_notMem hfree]

/-- Only a definition means one. -/
theorem compile_eq_define {ctx : Context} {st : Statement} {id : List Byte} {ops : List Access}
    {b b' : Bus} (h : st.compile ctx b = .ok (.define id ops) b') :
    ∃ body, st = .define id body ∧ compileBody ctx.toScope body [] b = .ok ops b' := by
  have hchecked : ∀ {addr : Word} {m : Meaning} {b : Bus}, (∀ ops, m ≠ .define id ops) →
      (checkAddr ctx.toScope addr >>= fun _ => pure m : Eval Meaning) b ≠
        .ok (.define id ops) b' := by
    intro addr m b hm heq
    obtain ⟨_, _, _, hpure⟩ := Fallible.bind_eq_ok.mp heq
    cases hpure
    exact hm ops rfl
  cases st with
  | define name body =>
      obtain ⟨_, b₁, hname, hrest⟩ := Fallible.bind_eq_ok.mp h
      have hb : b₁ = b := by
        unfold checkName at hname
        split at hname <;> cases hname
        rfl
      subst hb
      obtain ⟨all, b₂, hbody, hstore⟩ := Fallible.bind_eq_ok.mp hrest
      split_ifs at hstore <;> cases hstore
      exact ⟨body, rfl, hbody⟩
  | bind name e =>
      obtain ⟨_, b₁, _, hrest⟩ := Fallible.bind_eq_ok.mp h
      obtain ⟨v, b₂, _, hbind⟩ := Fallible.bind_eq_ok.mp hrest
      split at hbind <;> cases hbind
  | call f =>
      cases hcallee : ctx.callee f.val with
      | none =>
          simp only [Statement.compile, hcallee] at h
          cases h
      | some ops' =>
          simp only [Statement.compile, hcallee] at h
          cases h
  | value e =>
      obtain ⟨v, b₁, _, hpure⟩ := Fallible.bind_eq_ok.mp h
      cases hpure
  | peek a =>
      obtain ⟨addr, b₁, _, hrest⟩ := Fallible.bind_eq_ok.mp h
      exact absurd hrest (hchecked fun _ hm => Meaning.noConfusion hm)
  | poke a e =>
      obtain ⟨addr, b₁, _, hrest⟩ := Fallible.bind_eq_ok.mp h
      obtain ⟨v, b₂, _, hrest⟩ := Fallible.bind_eq_ok.mp hrest
      exact absurd hrest (hchecked fun _ hm => Meaning.noConfusion hm)
  | bit action a n =>
      obtain ⟨addr, b₁, _, hrest⟩ := Fallible.bind_eq_ok.mp h
      obtain ⟨v, b₂, _, hrest⟩ := Fallible.bind_eq_ok.mp hrest
      exact absurd hrest (hchecked fun _ hm => Meaning.noConfusion hm)
  | claim name =>
      obtain ⟨_, b₁, _, hpure⟩ := Fallible.bind_eq_ok.mp h
      cases hpure
  | drop name =>
      obtain ⟨_, b₁, _, hpure⟩ := Fallible.bind_eq_ok.mp h
      cases hpure
  | help => cases h
  | banner => cases h
  | sysAudit => cases h

end Definitions

/-! ### Compiling a line -/

section Compiling

variable {img : Image} {m : Machine} {w : World} {line : List Byte}

/-- A line that leaves the tables leaves a machine of the same world. -/
theorem models_same (h : Models img m w)
    (hsame : SameTables m.comp (m.comp.parse (m.env img) m.vm.bus line).comp) :
    Models img (m.compiled (m.comp.parse (m.env img) m.vm.bus line))
      (w.setBus (m.comp.parse (m.env img) m.vm.bus line).scan.bus) where
  reachable := .line h.reachable _ _ line
  vars := by
    have hvars := h.vars
    rw [← hsame.symbols] at hvars
    exact hvars
  fns name := (hsame.accessesOf img.code name).trans (h.fns name)
  count := (congrArg Finset.card (liveSlots_of_same hsame)).trans h.count
  bus := rfl
  audit := h.audit
  console := h.console

/-- A binding is one more of the world's. -/
theorem models_bind (h : Models img m w) {name : NameBuf} {v : Word}
    (hres : (m.comp.parse (m.env img) m.vm.bus line).result = .ok (.bound name v)) :
    Models img (m.compiled (m.comp.parse (m.env img) m.vm.bus line))
      ((w.setBus (m.comp.parse (m.env img) m.vm.bus line).scan.bus).learn
        (.bind name.asSlice v)) := by
  obtain ⟨_, symbols, hins, hsame⟩ := Sessions.accepted (m.env img) h.reachable.tablesOk hres
  have hfns : ∀ id, Compiler.accessesOf { m.comp with symbols := symbols } img.code id =
      m.comp.accessesOf img.code id := fun id => rfl
  exact {
    reachable := .line h.reachable _ _ line
    vars := by
      have hvars := faithful_insert h.vars hins
      rw [← show _ = symbols from hsame.symbols] at hvars
      exact hvars
    fns := fun id => ((hsame.accessesOf img.code id).trans (hfns id)).trans (h.fns id)
    count := (congrArg Finset.card (liveSlots_of_same hsame)).trans h.count
    bus := rfl
    audit := h.audit
    console := h.console }

/-- A definition is one more of the world's, with the accesses it was compiled to. -/
theorem models_define (h : Models img m w) {st : Statement} {name : NameBuf}
    {ops : List Access} {b : Bus} (hline : Spells st line)
    (hmeaning : st.compile (w.context img.target) m.vm.bus = .ok (.define name.asSlice ops) b)
    (hres : (m.comp.parse (m.env img) m.vm.bus line).result = .ok (.fnDefined name)) :
    Models img (m.compiled (m.comp.parse (m.env img) m.vm.bus line))
      ((w.setBus (m.comp.parse (m.env img) m.vm.bus line).scan.bus).learn
        (.define name.asSlice ops)) := by
  have hok := h.reachable.tablesOk
  obtain ⟨_, hdef⟩ := Sessions.accepted (m.env img) hok hres
  obtain ⟨body, rfl, hbody⟩ := compile_eq_define hmeaning
  obtain ⟨rest, htoks, _⟩ := hline
  obtain ⟨ops', heval, hdefines⟩ := hdef.meaning body rest htoks
  replace hdefines : Defines m.comp (m.comp.parse (m.env img) m.vm.bus line).comp name.asSlice
      (bodyWords img.code ops') := hdefines
  obtain ⟨more, hmore, hall⟩ := compileBody_eq_ok hbody
  have hops : ops' = ops := by
    have hscope : (m.env img).scope m.comp = (w.context img.target).toScope := h.fits.scope.symm
    rw [show (m.env img).scope (Frame.start m.comp m.vm.bus line).comp = _ from hscope] at heval
    cases hmore.symm.trans heval
    exact hall.symm
  subst hops
  have hstores := Sessions.parse_storesName (m.env img) hok hres
  have hlookup : ∀ id, (m.comp.parse (m.env img) m.vm.bus line).comp.accessesOf img.code id =
      List.lookup id ((name.asSlice, ops') :: w.fns) := by
    intro id
    unfold Compiler.accessesOf
    by_cases hid : id = name.asSlice
    · rw [hid, hdefines.body, List.lookup_cons_self, Option.map_some, accesses_bodyWords_nil]
    · rw [hdefines.others id hid, List.lookup_cons, beq_false_of_ne hid]
      exact h.fns id
  exact {
    reachable := .line h.reachable _ _ line
    vars := by
      have hvars := h.vars
      rw [← show _ = m.comp.symbols from hdefines.symbols] at hvars
      exact hvars
    fns := hlookup
    count := by
      refine (card_liveSlots_define h.reachable hdefines hstores).trans ?_
      exact congrArg (· + 1) h.count
    bus := rfl
    audit := h.audit
    console := h.console }

/-- What was accepted has been learnt. -/
theorem models_learn (h : Models img m w) {o : Outcome} {a : Meaning} {st : Statement} {b : Bus}
    (hline : Spells st line)
    (hmeaning : st.compile (w.context img.target) m.vm.bus = .ok a b)
    (hres : (m.comp.parse (m.env img) m.vm.bus line).result = .ok o)
    (hbus : (m.comp.parse (m.env img) m.vm.bus line).scan.bus = b)
    (hout : a.HandedOut img.code o) :
    Models img (m.compiled (m.comp.parse (m.env img) m.vm.bus line)) ((w.setBus b).learn a) := by
  have hok := h.reachable.tablesOk
  have hacc := Sessions.accepted (m.env img) hok hres
  subst hbus
  cases a with
  | bind id v =>
      obtain ⟨name, rfl, rfl⟩ := hout
      exact models_bind h hres
  | define id ops =>
      obtain ⟨name, rfl, rfl⟩ := hout
      exact models_define h hline hmeaning hres
  | perform ops =>
      obtain ⟨p, hcall, rfl⟩ := hout
      exact models_same h hacc.1.tables
  | print v =>
      obtain ⟨p, hvalue, rfl⟩ := hout
      exact models_same h hacc.1.tables
  | peek addr =>
      obtain rfl := hout
      exact models_same h hacc.1.tables
  | poke addr v =>
      obtain rfl := hout
      exact models_same h hacc.1.tables
  | bit action addr number =>
      obtain rfl := hout
      cases action with
      | set => exact models_same h hacc.1.tables
      | clear => exact models_same h hacc.1.tables
  | claim id =>
      obtain ⟨name, rfl, rfl⟩ := hout
      exact models_same h (Parser.Unchanged.tables hacc)
  | drop id =>
      obtain ⟨name, rfl, rfl⟩ := hout
      exact models_same h (Parser.Unchanged.tables hacc)
  | help =>
      obtain rfl := hout
      exact models_same h (Parser.Unchanged.tables hacc)
  | banner =>
      obtain rfl := hout
      exact models_same h (Parser.Unchanged.tables hacc)
  | sysAudit =>
      obtain rfl := hout
      exact models_same h (Parser.Unchanged.tables hacc)

end Compiling

/-! ### Executing it -/

section Executing

variable {img : Image} {c : Machine} {w : World}

/-- Answers that depend on a number that is printed. -/
theorem rel_map {α β γ : Type} {R : β → γ → Prop} {f : α → β} {g : α → γ} (x : Option α)
    (h : ∀ a, R (f a) (g a)) : Option.Rel R (x.map f) (x.map g) := by
  cases x with
  | none => exact .none
  | some a => exact .some (h a)

theorem rel_put {o : Option Machine} {o' : Option World} (h : Option.Rel (Models img) o o')
    (text : List Byte) : Option.Rel (Models img) (o.map (·.put text)) (o'.map (·.put text)) := by
  cases h with
  | none => exact .none
  | some hmodels => exact .some (hmodels.put text)

/-- A read the parse-time check permitted goes through at run time. -/
theorem enforcedPeek_of_permitted {t : Target} {r : Registry} {addr : Word}
    (h : Permitted t r addr) (b : Bus) :
    Memory.enforcedPeekU32 t r addr b = .ok (b.peekU32 addr) := by
  have hok := (Memory.enforcedPeek_isOk t r addr b).mpr (Memory.passes_of_permitted h)
  unfold Memory.enforcedPeekU32 at hok ⊢
  split_ifs at hok ⊢ with hsu
  · rfl
  · cases hcap : Registry.addrToCapId t addr with
    | none => rfl
    | some cap =>
        rw [hcap] at hok
        dsimp only at hok ⊢
        split_ifs at hok ⊢
        · rfl
        · cases hok

/-- The tables are the compiler's; the rest is what the machine shows. -/
theorem Models.of_comp (h : Models img c w) {c' : Machine} (hcomp : c'.comp = c.comp) :
    Models img c' { w with bus := c'.vm.bus, audit := c'.audit, console := c'.console } where
  reachable := hcomp ▸ h.reachable
  vars := by
    rw [hcomp]
    exact h.vars
  fns name := by
    rw [hcomp]
    exact h.fns name
  count := by
    rw [hcomp]
    exact h.count
  bus := rfl
  audit := rfl
  console := rfl

theorem models_run_call (h : Models img c w) {path : Path} {p : StreamProgram}
    {ops : List Access} (hcall : p.IsCall img.code ops)
    (halign : callBus img.target path ops c.vm.bus = performAll ops c.vm.bus) (cycles : Word) :
    Option.Rel (Models img) (execute img path cycles (.run p) c)
      (World.respond img cycles (.perform ops) w) := by
  obtain ⟨c', hrun, hbus, hcomp, haudit⟩ := run_call (m := c) path hcall
  have hmodels := h.of_comp hcomp
  rw [hbus, haudit, run_console hrun, halign, h.bus, h.audit, h.console] at hmodels
  simp only [execute, hrun, World.respond]
  exact .some (hmodels.put _)

theorem models_run_value (h : Models img c w) {path : Path} {p : StreamProgram} {v : Word}
    (hvalue : p.IsValue img.code v) (hyields : yielded img.target path v = v) (cycles : Word) :
    Option.Rel (Models img) (execute img path cycles (.run p) c)
      (World.respond img cycles (.print v) w) := by
  obtain ⟨c', hrun, hbus, hcomp, haudit⟩ := run_value (m := c) path hvalue
  have hmodels := h.of_comp hcomp
  rw [hbus, haudit, run_console hrun, h.bus, h.audit, h.console] at hmodels
  simp only [execute, hrun, hyields, World.respond]
  exact rel_map _ fun text => hmodels.put _

theorem models_store (h : Models img c w) {addr : Word}
    (hperm : Permitted img.target (c.registry img.target) addr) (cycles v : Word) :
    Models img (guardedPoke img cycles addr v c) (w.store img.target cycles addr v) := by
  have hstored : Models img
      ({ c with audit := noted (w.registry img.target) cycles addr v w.audit }.setBus
        (w.bus.pokeU32 addr v))
      { w with
        bus := w.bus.pokeU32 addr v
        audit := noted (w.registry img.target) cycles addr v w.audit } :=
    { h with bus := rfl, audit := rfl }
  unfold guardedPoke
  rw [enforcedPoke_of_permitted hperm, h.bus, h.audit, h.registry]
  exact hstored.put _

theorem models_cap (h : Models img c w) (act : List Byte → Registry → Answer × Registry)
    (name : NameBuf) :
    Option.Rel (Models img) (capCommand img act name c)
      (w.cap img.target act name.asSlice) := by
  unfold capCommand World.cap
  rw [h.registry]
  cases act name.asSlice (w.registry img.target) with
  | mk answer r =>
      refine rel_map _ fun text => ?_
      have hbus := h.setBus { w.bus with mem := Registry.store img.target w.bus.mem r }
      rw [Machine.setRegistry, h.bus]
      exact hbus.put text

/-- The addresses that a meaning was checked at. -/
def Meaning.Checks (addr : Word) : Meaning → Prop
  | .peek a | .poke a _ | .bit _ a _ => a = addr
  | _ => False

/-- What is handed out does what its meaning says. -/
theorem execute_models (h : Models img c w) {path : Path} {cycles : Word} {o : Outcome}
    {a : Meaning} (hout : a.HandedOut img.code o)
    (hperm : ∀ addr, a.Checks addr → Permitted img.target (c.registry img.target) addr)
    (halign : ∀ ops, a = .perform ops →
      callBus img.target path ops c.vm.bus = performAll ops c.vm.bus)
    (hyields : ∀ v, a = .print v → yielded img.target path v = v) :
    Option.Rel (Models img) (execute img path cycles o c) (World.respond img cycles a w) := by
  cases a with
  | bind id v =>
      obtain ⟨name, rfl, rfl⟩ := hout
      exact rel_map _ fun text => h.put _
  | define id ops =>
      obtain ⟨name, rfl, rfl⟩ := hout
      exact .some (h.put _)
  | perform ops =>
      obtain ⟨p, hcall, rfl⟩ := hout
      exact models_run_call h hcall (halign ops rfl) cycles
  | print v =>
      obtain ⟨p, hvalue, rfl⟩ := hout
      exact models_run_value h hvalue (hyields v rfl) cycles
  | peek addr =>
      obtain rfl := hout
      simp only [execute, enforcedPeek_of_permitted (hperm addr rfl), World.respond, ← h.bus]
      exact rel_map _ fun text => (h.setBus _).put _
  | poke addr v =>
      obtain rfl := hout
      exact .some (models_store h (hperm addr rfl) cycles v)
  | bit action addr number =>
      obtain rfl := hout
      have hread := h.setBus (c.vm.bus.peekU32 addr).2
      rw [BitAction.execute_outcome]
      unfold bitCommand
      simp only [World.respond, ← h.bus]
      refine rel_map _ fun mask => models_store hread ?_ cycles _
      rw [registry_of_quiet (Parser.quiet_peekU32 c.vm.bus addr)]
      exact hperm addr rfl
  | claim id =>
      obtain ⟨name, rfl, rfl⟩ := hout
      exact models_cap h doClaim name
  | drop id =>
      obtain ⟨name, rfl, rfl⟩ := hout
      exact models_cap h doDrop name
  | help =>
      obtain rfl := hout
      exact .some (h.put _)
  | banner =>
      obtain rfl := hout
      exact .some (h.put _)
  | sysAudit =>
      obtain rfl := hout
      simp only [execute, World.respond, ← h.audit]
      exact rel_map _ h.put

end Executing

/-! ### Lines and sessions -/

section Lines

variable {img : Image}

/-- What native code gets right: the accesses of the function that is called are aligned
and their literals arrive, and so does a value that is printed. -/
def LineRight (img : Image) (w : World) (st : Statement) : Prop :=
  match st.compile (w.context img.target) w.bus with
  | .ok (.perform ops) b => MachineAligned img.target none ops b.mem
  | .ok (.print v) _ => Loads img.target v
  | _ => True

/-- The interpreter gets every line right. -/
def PathRight (img : Image) (w : World) (st : Statement) (input : Input) : Prop :=
  input.path = .threaded ∨ LineRight img w st

/-- What is handed out was checked. -/
theorem permitted_of_handedOut {env : Parser.Env} {ts : List Token} {s s' : Frame} {o : Outcome}
    {a : Meaning} (h : Parser.Accepted env ts s s' o) (hout : a.HandedOut env.code o)
    {addr : Word} (haddr : a.Checks addr) : Permitted env.target env.registry addr := by
  cases a with
  | peek a =>
      obtain rfl := haddr
      obtain rfl := hout
      exact h.2
  | poke a v =>
      obtain rfl := haddr
      obtain rfl := hout
      exact h.2
  | bit action a n =>
      obtain rfl := haddr
      obtain rfl := hout
      cases action with
      | set => exact h.2
      | clear => exact h.2
  | _ => cases haddr

theorem toks_ne_nil (st : Statement) : st.toks ≠ [] := by
  cases st with
  | value e =>
      obtain ⟨⟨head, tail⟩, _⟩ := e
      cases head <;> exact List.cons_ne_nil _ _
  | _ => exact List.cons_ne_nil _ _

/-- Nothing spells a statement on an empty line. -/
theorem Spells.isEmpty {st : Statement} {line : List Byte} (h : Spells st line) :
    line.isEmpty = false := by
  cases line with
  | cons b rest => rfl
  | nil =>
      obtain ⟨rest, htoks, _⟩ := h
      exact absurd (List.append_eq_nil_iff.mp htoks.symm).1 (toks_ne_nil st)

/-- A line that spells a statement does what the statement means. -/
theorem feedLine_models {m : Machine} {w : World} (h : Models img m w) {st : Statement}
    {input : Input} (hline : Spells st input.line) (hright : PathRight img w st input) :
    Option.Rel (Models img) (feedLine img m input) (w.line img st input.cycles) := by
  have hok := h.reachable.tablesOk
  have hparse := parse_compiles hok h.fits hline m.vm.bus
  unfold World.line
  rw [← h.bus]
  cases hmeaning : st.compile (w.context img.target) m.vm.bus with
  | ok a b =>
      rw [hmeaning] at hparse
      obtain ⟨o, hres, hbus, hout⟩ := hparse
      have hlearnt := models_learn h hline hmeaning hres hbus hout
      have hacc := Sessions.accepted (m.env img) hok hres
      have hquiet := Sessions.parse_quiet (m.env img) hok m.vm.bus input.line
      rw [feedLine_of_verdict img hres input.path input.cycles]
      refine rel_put (execute_models hlearnt hout ?_ ?_ ?_) prompt
      · intro addr haddr
        have hreg : (m.compiled (m.comp.parse (m.env img) m.vm.bus input.line)).registry
            img.target = m.registry img.target := registry_of_quiet hquiet
        rw [hreg]
        exact permitted_of_handedOut hacc hout haddr
      · rintro ops rfl
        refine callBus_eq (hright.imp_right fun hline => ?_)
        rw [LineRight, ← h.bus, hmeaning] at hline
        rw [← hbus] at hline
        exact hline
      · rintro v rfl
        refine yielded_eq (hright.imp_right fun hline => ?_)
        rw [LineRight, ← h.bus, hmeaning] at hline
        exact hline
  | error e b =>
      rw [hmeaning] at hparse
      obtain ⟨hres, rfl⟩ := hparse
      obtain ⟨_, hun⟩ := Sessions.rejected (m.env img) hok hres
      have hsame := models_same h hun.tables
      simp only [feedLine, hline.isEmpty, hres, Bool.false_eq_true, if_false]
      exact .some ((hsame.put _).put prompt)

/-- One line of a session that may have stopped. -/
def feed (img : Image) (m : Option Machine) (entry : Statement × Input) : Option Machine :=
  Confinement.feed img m entry.2

/-- A session starts with empty tables. -/
theorem models_boot (img : Image) (bus : Bus) : Models img (.boot bus) (.boot bus) where
  reachable := .new
  vars := SymbolTable.faithful_empty
  fns _ := rfl
  count := rfl
  bus := rfl
  audit := rfl
  console := rfl

/-- A session of lines that spell statements, those that run natively being right, is the
session of the statements: what is on the console, what is in memory and on the bus and in
the audit log, what is bound and defined, and whether the machine stopped. -/
theorem session_refines (bus : Bus) {entries : List (Statement × Input)}
    (h : EveryStep (World.step img) (fun o entry => Spells entry.1 entry.2.line ∧
      ∀ w, o = some w → PathRight img w entry.1 entry.2) (some (.boot bus)) entries) :
    Option.Rel (Models img)
      (Runs.run (Confinement.feed img) (some (.boot bus)) (entries.map Prod.snd))
      (Runs.run (World.step img) (some (.boot bus)) entries) := by
  have hrun : Runs.run (Confinement.feed img) (some (.boot bus)) (entries.map Prod.snd) =
      Runs.run (feed img) (some (.boot bus)) entries := List.foldl_map
  rw [hrun]
  refine Runs.run_related ?_ (.some (models_boot img bus)) h
  rintro m w entry hrel ⟨hline, hright⟩
  cases hrel with
  | none => exact .none
  | some hmodels => exact feedLine_models hmodels hline (hright _ rfl)

/-- `fn f() { poke 0x20000100 1; }` and the call of it. -/
def sampleEntries : List (Statement × Input) :=
  [(.define (bytes "f") [.poke (.lit 0x20000100) (.mk (.lit 1) .nil)],
      threadedLine "fn f() \x7b poke 0x20000100 1; \x7d"),
    (.call ⟨bytes "f", by decide⟩, threadedLine "f();")]

theorem session_refines_sample : Option.Rel (Models armImage)
    (Runs.run (Confinement.feed armImage) (some (.boot ⟨fun _ => 0, []⟩))
      (sampleEntries.map Prod.snd))
    (Runs.run (World.step armImage) (some (.boot ⟨fun _ => 0, []⟩)) sampleEntries) := by
  refine session_refines ⟨fun _ => 0, []⟩ ?_
  unfold sampleEntries
  simp only [Runs.everyStep_cons]
  exact ⟨⟨⟨[], by decide +kernel, trivial⟩, fun _ _ => .inl rfl⟩,
    ⟨⟨[.semicolon], by decide +kernel, [], .inl rfl⟩, fun _ _ => .inl rfl⟩, Runs.everyStep_nil⟩

end Lines

end HolyRust.Language
