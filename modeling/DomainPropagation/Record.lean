import DomainPropagation.Key

/-! Records of what a store does, in the order in which it does it. -/

namespace DomainPropagation

inductive Severity
  | warn
  | debug
  | trace
deriving DecidableEq

def Severity.label : Severity → String
  | .warn => "WARN"
  | .debug => "DEBUG"
  | .trace => "TRACE"

inductive Record
  | countsNothing (serial : Serial)
  | imposed (description : String) (h : Handle)
  | ran (description : String)
  | emptied (description : String) (x : Var)
  | entailed (description : String) (level : Nat)
  | backtracked (source target undone : Nat)
deriving DecidableEq

namespace Record

def severity : Record → Severity
  | .countsNothing _ => .warn
  | .ran _ => .trace
  | _ => .debug

def text : Record → String
  | .countsNothing c => s!"Count{c} does not count any variables, its counter will be fixed to 0"
  | .imposed p h => s!"Imposed {p} as {h}"
  | .ran p => s!"Propagating {p}"
  | .emptied p x => s!"{p} emptied the domain of {x}"
  | .entailed p level => s!"{p} is entailed at level {level}"
  | .backtracked source target undone =>
    s!"Backtracking from level {source} to level {target}, undoing {undone} domain changes"

def line (r : Record) : String := s!"{r.severity.label} {r.text}"

end Record

end DomainPropagation
