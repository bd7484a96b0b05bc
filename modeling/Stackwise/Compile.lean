import Stackwise.Code.Balance
import Stackwise.Lowering.Body
import Stackwise.Peephole.Rounds

/-!
# Compiling modules

A function is lowered, checked, optimized, and checked again if the optimizer has changed it; an
initializer is lowered, optimized and checked.  A module is compiled body by body, each on its own:
all functions are tried, the first fault in the order of declaration decides, and only then come
the initializers.  A fatal fault ends the run at once.  Every run reports its events, also when it
fails.
-/

namespace Stackwise

open Code (Assembly Body Initializer)
open Peephole (Level Stats Unlisted)
open Source (Module)

/-- How bodies are compiled. -/
structure Options where
  level : Level := .fold
  /-- Whether bodies are checked. -/
  verify : Bool := true
  /-- Whether bodies may be compiled side by side, which changes no result. -/
  parallel : Bool := true
deriving DecidableEq, Repr

namespace Options

/-- The usual options with another level of optimization. -/
def withLevel (level : Level) : Options := { level }

/-- The usual options, one body after another. -/
def singleThreaded : Options := { parallel := false }

end Options

/-- The event that an optimized body is worth, if it was changed. -/
def optimizedEvent (name : String) (stats : Stats) : List Event :=
  if stats.changes = 0 then [] else [.optimized name stats]

/-- Optimizes a body, which is given as it stands at the end. -/
def optimizeBody (level : Level) (body : Body) : Body × Except Unlisted Stats :=
  let (blocks, stats) := Peephole.optimize body.storage level body.blocks
  ({ body with blocks }, stats)

/-- Optimizes an initializer, as a body of one block. -/
def optimizeInitializer (level : Level) (i : Initializer) :
    Initializer × Except Unlisted Stats :=
  let (blocks, stats) := Peephole.optimize i.storage level [i.block]
  ({ i with block := blocks.headD i.block }, stats)

/-- Checks a body, if that is asked for. -/
def checkIf (asked : Bool) (name : String) (blocks : List Code.Block) : Except Fault Unit :=
  if asked then Code.verify name blocks else .ok ()

/-- Compiles a function definition. -/
def compileFunction (c : Conventions) (m : Module) (throwing : Throwing) (function : Nat)
    (options : Options) : Except Fault (Body × Stats) × List Event :=
  match Lowering.lowerFunction c m throwing function with
  | (.error fault, events) => (.error fault, events)
  | (.ok lowered, events) =>
    match checkIf options.verify lowered.name lowered.blocks with
    | .error fault => (.error fault, events)
    | .ok () =>
      match optimizeBody options.level lowered with
      | (_, .error _) => (.error .dangling, events)
      | (body, .ok stats) =>
        let checked := checkIf (options.verify && 0 < stats.changes) body.name body.blocks
        (checked.map fun () => (body, stats), events ++ optimizedEvent body.name stats)

/-- Compiles the initializer of a global. -/
def compileInitializer (c : Conventions) (m : Module) (global : Nat) (options : Options) :
    Except Fault Initializer × List Event :=
  match Lowering.lowerInitializer c m global with
  | (.error fault, events) => (.error fault, events)
  | (.ok lowered, events) =>
    match optimizeInitializer options.level lowered with
    | (_, .error _) => (.error .dangling, events)
    | (i, .ok _) => ((checkIf options.verify i.name [i.block]).map fun () => i, events)

/-- The fault of a module in which a function has a fault, given how the functions behind it went:
the first one decides, unless a later one is fatal. -/
def worstFault (first : Fault) : Except Fault (List Body) → Fault
  | .error later => if later.isFatal then later else first
  | .ok _ => first

/-- Compiles functions, all of them up to a fatal fault; the first fault decides otherwise. -/
def compileFunctions (c : Conventions) (m : Module) (throwing : Throwing) (options : Options) :
    List Nat → Except Fault (List Body) × List Event
  | [] => (.ok [], [])
  | function :: rest =>
    match compileFunction c m throwing function options with
    | (.ok (body, _), events) =>
      let (others, later) := compileFunctions c m throwing options rest
      (others.map (body :: ·), events ++ later)
    | (.error fault, events) =>
      if fault.isFatal then (.error fault, events)
      else
        let (others, later) := compileFunctions c m throwing options rest
        (.error (worstFault fault others), events ++ later)

/-- Compiles initializers up to the first fault. -/
def compileInitializers (c : Conventions) (m : Module) (options : Options) :
    List Nat → Except Fault (List Initializer) × List Event
  | [] => (.ok [], [])
  | global :: rest =>
    match compileInitializer c m global options with
    | (.error fault, events) => (.error fault, events)
    | (.ok first, events) =>
      let (others, later) := compileInitializers c m options rest
      (others.map (first :: ·), events ++ later)

/-- The functions of a module that have a body. -/
def definitions (m : Module) : List Nat :=
  (m.functions.toList.filter fun f => !f.isDeclaration).map (·.id)

/-- The globals of a module that have an initial value. -/
def initialized (m : Module) : List Nat :=
  (m.globals.toList.filter fun g => g.initializer.isSome).map (·.id)

/-- Compiles every definition and initializer of a module. -/
def compile (c : Conventions) (m : Module) (options : Options) :
    Except Fault Assembly × List Event :=
  let (throwing, analysis) := Throwing.analyze c m
  let (bodies, events) := compileFunctions c m throwing options (definitions m)
  match bodies with
  | .error fault => (.error fault, analysis :: events)
  | .ok bodies =>
    let (initializers, later) := compileInitializers c m options (initialized m)
    match initializers with
    | .error fault => (.error fault, analysis :: events ++ later)
    | .ok initializers =>
      let done := Event.loweredModule m.name bodies.length initializers.length
        throwing.throwers.length options.parallel
      (.ok { name := m.name, bodies, initializers }, analysis :: events ++ later ++ [done])

end Stackwise
