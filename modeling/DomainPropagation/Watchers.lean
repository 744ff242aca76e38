import DomainPropagation.Event
import DomainPropagation.Table

/-! Who is to be woken by which change of which variable. -/

namespace DomainPropagation

structure Watcher where
  handle : Handle
  events : EventSet
deriving DecidableEq

structure Watchers where
  table : Table Var (List Watcher) := {}
deriving DecidableEq

namespace Watchers

def join (h : Handle) (es : EventSet) : List Watcher → List Watcher
  | [] => [⟨h, es⟩]
  | w :: ws => if w.handle = h then { w with events := w.events ∪ es } :: ws else w :: join h es ws

def leave (h : Handle) (ws : List Watcher) : List Watcher :=
  ws.filter (·.handle ≠ h)

def grow (w : Watchers) : Watchers := ⟨w.table.push []⟩

/-- To watch for nothing is no request, even on a variable that does not exist. -/
def watch (w : Watchers) (x : Var) (h : Handle) (es : EventSet) : Except Misuse Watchers :=
  if es = ∅ then .ok w else return ⟨← w.table.set x (join h es (← w.table.get x))⟩

def unwatch (w : Watchers) (x : Var) (h : Handle) : Except Misuse Watchers :=
  return ⟨← w.table.set x (leave h (← w.table.get x))⟩

def interest (w : Watchers) (x : Var) (h : Handle) : EventSet :=
  match w.table.get? x with
  | some ws => ((ws.find? (·.handle == h)).map Watcher.events).getD ∅
  | none => ∅

def affected (w : Watchers) (e : Event) (x : Var) : Except Misuse (List Handle) :=
  return ((← w.table.get x).filter fun v => decide (e ∈ v.events)).map Watcher.handle

end Watchers

end DomainPropagation
