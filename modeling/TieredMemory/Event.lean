import TieredMemory.Address
import TieredMemory.Layout
import TieredMemory.Range

/-!
# What is worth a log line

An event is what happened; its level and its text are read off it. A logged computation carries its
events beside its outcome, also those before a failure.
-/
set_option autoImplicit false

namespace TieredMemory

/-- How much detail a line gives, least first. -/
inductive LogLevel where
  | info
  | debug
  | trace
  deriving DecidableEq, Repr

namespace LogLevel

def name : LogLevel → String
  | .info => "INFO"
  | .debug => "DEBUG"
  | .trace => "TRACE"

def detail : LogLevel → Nat
  | .info => 0
  | .debug => 1
  | .trace => 2

def shows (l line : LogLevel) : Bool := line.detail ≤ l.detail

end LogLevel

inductive Event where
  | planned (topology : Topology) (layout : Layout)
  | encoded (address : Address) (raw : UInt64)
  | decoded (raw : UInt64) (address : Address)
  | bankPlaced (tier : Tier) (bank banks first last : UInt64) (range : AddressRange)
  | machineSelected (name : String) (topology : Topology)
  | machineMapped (name : String) (topology : Topology)
  | banksListed (name : String) (count : Nat)
  | machineLoaded (name path : String)
  | headerRendered (topology : Topology) (bytes : Nat)
  | scriptRendered (bytes : Nat)
  deriving DecidableEq

namespace Event

def level : Event → LogLevel
  | .encoded .. | .decoded .. => .trace
  | .machineSelected .. => .info
  | _ => .debug

def message : Event → String
  | .planned t l =>
    s!"planned address layout for {t.pxns}x{t.pods}x{t.cores}: pxn {l.pxn.text}, " ++
      s!"pod {l.pod.text}, core {l.core.text}, dram offset {l.dramOffset.text}, " ++
      s!"l2sp offset {l.l2spOffset.text}"
  | .encoded a raw => s!"encode {a.text} -> {Word.addressText raw}"
  | .decoded raw a => s!"decode {Word.addressText raw} -> {a.text}"
  | .bankPlaced tier bank banks first last range =>
    s!"{tier.name} bank {bank}/{banks}: offsets {Word.hexText first}..={Word.hexText last} -> " ++
      range.text
  | .machineSelected name t => s!"system '{name}': {t.text}"
  | .machineMapped name t =>
    s!"system '{name}': address map planned for {t.totalCores?.getD Word.largest} cores"
  | .banksListed name count => s!"system '{name}': {count} bank ranges"
  | .machineLoaded name path => s!"loaded system '{name}' from {path}"
  | .headerRendered t bytes =>
    s!"rendered C header for TopologyConfig \x7b pxns: {t.pxns}, pods: {t.pods}, " ++
      s!"cores: {t.cores} \x7d ({bytes} bytes)"
  | .scriptRendered bytes => s!"rendered linker script ({bytes} bytes)"

end Event

/-- The events of a computation, with its result or the failure that ended it. -/
structure Logged (ε α : Type) where
  events : List Event
  outcome : Except ε α

namespace Logged

variable {ε ε' α β : Type}

protected def pure (a : α) : Logged ε α := ⟨[], .ok a⟩

/-- Runs `f` on the result, its events after those of `x`; a failure ends the computation. -/
protected def bind (x : Logged ε α) (f : α → Logged ε β) : Logged ε β :=
  match x.outcome with
  | .ok a => let y := f a; ⟨x.events ++ y.events, y.outcome⟩
  | .error e => ⟨x.events, .error e⟩

instance : Monad (Logged ε) where
  pure := Logged.pure
  bind := Logged.bind

/-- A result that no event tells of. -/
def ofExcept (x : Except ε α) : Logged ε α := ⟨[], x⟩

def noting (x : Except ε α) (event : α → Event) : Logged ε α :=
  match x with
  | .ok a => ⟨[event a], .ok a⟩
  | .error e => ⟨[], .error e⟩

def emit (event : Event) : Logged ε Unit := ⟨[event], .ok ()⟩

def mapError (f : ε → ε') (x : Logged ε α) : Logged ε' α := ⟨x.events, x.outcome.mapError f⟩

/-- `collect` after the given events and items, both last first. -/
def collectOnto (f : Nat → Logged ε (List α)) (events : List Event) (items : List α) :
    (start count : Nat) → Logged ε (List α)
  | _, 0 => ⟨events.reverse, .ok items.reverse⟩
  | start, count + 1 =>
    match f start with
    | ⟨more, .error e⟩ => ⟨(more.reverseAux events).reverse, .error e⟩
    | ⟨more, .ok found⟩ =>
      collectOnto f (more.reverseAux events) (found.reverseAux items) (start + 1) count

/-- Runs `f start`, `f (start + 1)`, … `count` times and joins the lists; the first failure ends the
run. -/
def collect (f : Nat → Logged ε (List α)) (start count : Nat) : Logged ε (List α) :=
  collectOnto f [] [] start count

@[simp] theorem outcome_pure (a : α) : (pure a : Logged ε α).outcome = .ok a := rfl

@[simp] theorem outcome_bind (x : Logged ε α) (f : α → Logged ε β) :
    (x >>= f).outcome = x.outcome.bind fun a => (f a).outcome := by
  show (Logged.bind x f).outcome = _
  unfold Logged.bind
  cases x.outcome <;> rfl

theorem outcome_bind_of_error {x : Logged ε α} {f : α → Logged ε β} {e : ε}
    (h : x.outcome = .error e) : (x >>= f).outcome = .error e := by
  rw [outcome_bind, h]
  rfl

theorem outcome_bind_of_ok {x : Logged ε α} {f : α → Logged ε β} {a : α}
    (h : x.outcome = .ok a) : (x >>= f).outcome = (f a).outcome := by
  rw [outcome_bind, h]
  rfl

@[simp] theorem outcome_map (f : α → β) (x : Logged ε α) : (f <$> x).outcome = x.outcome.map f := by
  show (Logged.bind x fun a => Logged.pure (f a)).outcome = _
  unfold Logged.bind
  cases x.outcome <;> rfl

@[simp] theorem outcome_noting (x : Except ε α) (event : α → Event) :
    (noting x event).outcome = x := by cases x <;> rfl

@[simp] theorem outcome_ofExcept (x : Except ε α) : (ofExcept x).outcome = x := rfl

@[simp] theorem ofExcept_ok (a : α) : (ofExcept (.ok a) : Logged ε α) = pure a := rfl

@[simp] theorem outcome_emit (event : Event) : (emit event : Logged ε Unit).outcome = .ok () := rfl

@[simp] theorem outcome_mapError (f : ε → ε') (x : Logged ε α) :
    (x.mapError f).outcome = x.outcome.mapError f := rfl

theorem collectOnto_eq (f : Nat → Logged ε (List α)) (events : List Event) (items : List α)
    (start count : Nat) :
    collectOnto f events items start count =
      ⟨events.reverse ++ (collect f start count).events,
        (collect f start count).outcome.map (items.reverse ++ ·)⟩ := by
  unfold collect
  induction count generalizing events items start with
  | zero => simp [collectOnto, Except.map]
  | succ count ih =>
    simp only [collectOnto]
    rcases f start with ⟨more, outcome⟩
    cases outcome with
    | error e => simp [List.reverseAux_eq, Except.map]
    | ok found =>
      simp only [ih (more.reverseAux events), ih (more.reverseAux [])]
      rcases (collectOnto f [] [] (start + 1) count).outcome with e | rest <;>
        simp [List.reverseAux_eq, Except.map]

theorem collect_succ (f : Nat → Logged ε (List α)) (start count : Nat) :
    collect f start (count + 1) = do
      let first ← f start
      let rest ← collect f (start + 1) count
      return first ++ rest := by
  show collectOnto f [] [] start (count + 1) = Logged.bind (f start) _
  simp only [collectOnto, Logged.bind]
  rcases f start with ⟨more, outcome⟩
  cases outcome with
  | error e => simp [List.reverseAux_eq]
  | ok found =>
    simp only [collectOnto_eq, Bind.bind, Logged.bind]
    rcases (collect f (start + 1) count).outcome with e | rest <;>
      simp [List.reverseAux_eq, Except.map, Pure.pure, Logged.pure]

instance : LawfulMonad (Logged ε) := LawfulMonad.mk' (Logged ε)
  (by
    intro α x
    rcases x with ⟨events, outcome⟩
    cases outcome <;> simp [Functor.map, Logged.bind, Logged.pure])
  (by intro α β a f; simp [Bind.bind, Pure.pure, Logged.bind, Logged.pure])
  (by
    intro α β γ x f g
    rcases x with ⟨events, outcome⟩
    cases outcome with
    | error e => rfl
    | ok a =>
      show Logged.bind (Logged.bind _ _) _ = Logged.bind _ _
      simp only [Logged.bind]
      rcases h : (f a).outcome with e | b <;> simp [Bind.bind, Logged.bind, h])

end Logged

end TieredMemory
