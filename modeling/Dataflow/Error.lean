import Dataflow.Datum.Basic
import Dataflow.Fact.Value
import Dataflow.Ir.Exp

/-!
Everything that can go wrong, by cause. `Error.message` has the wording, `Error.code?` the number under
which an error is filed, and `Error.family` what it is an error of.
-/

namespace Dataflow

inductive Phase where
  | config | ir | callGraph | solver
deriving DecidableEq

def Phase.text : Phase → String
  | .config => "config"
  | .ir => "ir"
  | .callGraph => "callgraph"
  | .solver => "solver"

structure ErrorCode where
  number : Nat
  phase : Phase
  title : String
deriving DecidableEq

namespace ErrorCode

def invalidOption : ErrorCode := ⟨1000, .config, "invalid option"⟩
def unknownAnalysis : ErrorCode := ⟨1001, .config, "unknown analysis"⟩
def cyclicRequirement : ErrorCode := ⟨1002, .config, "cyclic requirement"⟩
def missingContext : ErrorCode := ⟨1003, .config, "missing context"⟩
def unsupportedDirection : ErrorCode := ⟨1004, .config, "unsupported analysis direction"⟩
def unresolvedLabel : ErrorCode := ⟨2000, .ir, "unresolved label"⟩
def duplicateLabel : ErrorCode := ⟨2001, .ir, "duplicate label"⟩
def missingBody : ErrorCode := ⟨2002, .ir, "method has no body"⟩
def duplicateMethod : ErrorCode := ⟨2003, .ir, "duplicate method"⟩
def invalidStatement : ErrorCode := ⟨2004, .ir, "invalid statement"⟩
def arityMismatch : ErrorCode := ⟨3000, .callGraph, "argument count mismatch"⟩
def foreignCallSite : ErrorCode := ⟨3001, .callGraph, "call site outside caller"⟩
def unreachableCaller : ErrorCode := ⟨3002, .callGraph, "caller not reachable"⟩
def unknownNode : ErrorCode := ⟨3003, .callGraph, "node not in graph"⟩
def noConvergence : ErrorCode := ⟨4000, .solver, "no convergence"⟩

def all : List ErrorCode :=
  [invalidOption, unknownAnalysis, cyclicRequirement, missingContext, unsupportedDirection,
    unresolvedLabel, duplicateLabel, missingBody, duplicateMethod, invalidStatement,
    arityMismatch, foreignCallSite, unreachableCaller, unknownNode, noConvergence]

def text (c : ErrorCode) : String :=
  let digits := toString c.number
  "FLOW-" ++ String.ofList (List.replicate (4 - digits.length) '0') ++ digits

def described (c : ErrorCode) : String :=
  "ErrorCode(" ++ c.text ++ ", " ++ c.phase.text ++ ", " ++ Text.quoted c.title ++ ")"

end ErrorCode

inductive Error where
  -- configurations and plans
  | badId (given : Datum)
  | entryWithoutId (given : Datum)
  | unknownKeys (id : Datum) (keys : List String)
  | optionsNotMapping (id : Datum)
  | badStrategy (id : String) (given : Datum)
  | badLimit (id : String) (given : Datum)
  | listedTwice (id : String)
  | planWithoutList
  | planNotMapping
  | planUnreadable (path : String)
  | planMissing (path : String)
  | planNotObject (path : String)
  | tooManyDigits (digits : Nat)
  | nestedTooDeep
  | unknownStrategy (name : String)
  -- analyses and their order
  | unknownAnalysis (id : String)
  | cyclicRequirement (path : List String)
  | unnamedAnalysis (name : String)
  | noEntryMethod
  | needsContext (id : String)
  | needsBody (id : String)
  | unrunnable (id : String)
  | backward (id : String)
  -- classes, methods and bodies
  | duplicateMethod (cls : ClassId) (sig : Subsignature)
  | parameterNames (method : MethodRef) (names params : Nat)
  | assignedCall (call : Call)
  | duplicateLabel (method : MethodRef) (label : String)
  | bodyFinished (method : MethodRef)
  | danglingLabels (method : MethodRef) (labels : List String)
  | undefinedLabel (method : MethodRef) (label : String)
  | noBody (method : MethodRef)
  -- graphs
  | jumpsNowhere (method : MethodRef) (pos : Nat)
  | notInGraph (node : String) (method : MethodRef)
  | notInIcfg (node : String)
  | methodNotInIcfg (method : MethodRef)
  | danglingEdge
  -- calls
  | foreignCallSite (site : String) (caller : Option MethodRef)
  | unreachableCaller (caller : MethodRef) (site : String)
  | arityMismatch (site : String) (callee : MethodRef) (args : Nat)
  | wrongStmt (stmt : String)
  | needsHierarchy
  | unmarkedMethod
  -- solving
  | noConvergence (id : String) (limit : Int)
  | endless (id : String)
  -- values
  | notConstant (value : Value)
  | unordered (name : String)
  | uncountable (what : String)
  | noOperation (what : String)
  | noTop
  -- sessions
  | wrongResult (id : String)
  | noFact (node : String)
  | noLiveness (node : String)
  | noSource (node : String)
  | unbound (name : String)
  | outOfRange (i : Int)

namespace Error

inductive Family where
  | config | unknownAnalysis | ir | callGraph | arity | convergence
  | value | unavailable | missingKey | wrongSort | mismatch | unrunnable | unbound | range
  | divergence | depth
deriving DecidableEq

def family : Error → Family
  | .unknownAnalysis _ => .unknownAnalysis
  | .planNotMapping | .wrongStmt _ | .wrongResult _ | .noFact _ | .noOperation _ => .wrongSort
  | .unordered _ | .noLiveness _ | .noSource _ | .uncountable _ => .mismatch
  | .unrunnable _ => .unrunnable
  | .duplicateMethod _ _ | .parameterNames _ _ _ | .assignedCall _ | .duplicateLabel _ _
  | .bodyFinished _ | .danglingLabels _ _ | .undefinedLabel _ _ | .noBody _ | .jumpsNowhere _ _
  | .notInGraph _ _ | .notInIcfg _ | .methodNotInIcfg _ => .ir
  | .foreignCallSite _ _ | .unreachableCaller _ _ | .needsHierarchy => .callGraph
  | .arityMismatch _ _ _ => .arity
  | .noConvergence _ _ => .convergence
  | .endless _ => .divergence
  | .danglingEdge | .unmarkedMethod => .missingKey
  | .notConstant _ | .tooManyDigits _ => .value
  | .noTop => .unavailable
  | .unbound _ => .unbound
  | .outOfRange _ => .range
  | .nestedTooDeep => .depth
  | _ => .config

def code? : Error → Option ErrorCode
  | .unknownAnalysis _ => some .unknownAnalysis
  | .cyclicRequirement _ => some .cyclicRequirement
  | .noEntryMethod | .needsContext _ | .needsHierarchy => some .missingContext
  | .backward _ => some .unsupportedDirection
  | .danglingLabels _ _ | .undefinedLabel _ _ | .jumpsNowhere _ _ => some .unresolvedLabel
  | .duplicateLabel _ _ => some .duplicateLabel
  | .bodyFinished _ | .noBody _ => some .missingBody
  | .duplicateMethod _ _ => some .duplicateMethod
  | .assignedCall _ => some .invalidStatement
  | .parameterNames _ _ _ | .arityMismatch _ _ _ => some .arityMismatch
  | .foreignCallSite _ _ => some .foreignCallSite
  | .unreachableCaller _ _ => some .unreachableCaller
  | .notInGraph _ _ | .notInIcfg _ | .methodNotInIcfg _ => some .unknownNode
  | .noConvergence _ _ => some .noConvergence
  | .planNotMapping | .tooManyDigits _ | .nestedTooDeep | .unrunnable _ | .danglingEdge | .wrongStmt _
  | .unmarkedMethod
  | .endless _ | .notConstant _ | .unordered _ | .uncountable _ | .noOperation _ | .noTop | .wrongResult _
  | .noFact _ | .noLiveness _ | .noSource _ | .unbound _ | .outOfRange _ => none
  | _ => some .invalidOption

def hasCause : Error → Bool
  | .planUnreadable _ | .planMissing _ => true
  | _ => false

def message : Error → String
  | .badId given => "analysis id must be a non-empty string, got " ++ given.shown
  | .entryWithoutId given => "analysis entry needs an 'id': " ++ given.shown
  | .unknownKeys id keys =>
      "analysis " ++ id.shown ++ ": unknown key(s) " ++ Text.bracketed (keys.map Text.quoted)
  | .optionsNotMapping id => "analysis " ++ id.shown ++ ": options must be a mapping"
  | .badStrategy id given =>
      "analysis " ++ Text.quoted id ++ ": strategy must be one of worklist, iterative, got " ++ given.shown
  | .badLimit id given =>
      "analysis " ++ Text.quoted id ++ ": max_iterations must be a positive int, got " ++ given.shown
  | .listedTwice id => "analysis " ++ Text.quoted id ++ " listed twice"
  | .planWithoutList => "plan needs an 'analyses' list"
  | .planNotMapping => "plan must be a mapping"
  | .planUnreadable path => path ++ ": invalid JSON"
  | .planMissing path =>
      path ++ ": cannot read plan: [Errno 2] No such file or directory: " ++ Text.quoted path
  | .planNotObject path => path ++ ": plan must be a JSON object"
  | .nestedTooDeep => "too many lists and objects in each other"
  | .tooManyDigits digits =>
      "Exceeds the limit (4300 digits) for integer string conversion: value has " ++ toString digits ++
        " digits; use sys.set_int_max_str_digits() to increase the limit"
  | .unknownStrategy name => "unknown solver strategy " ++ Text.quoted name
  | .unknownAnalysis id => "no analysis registered under id " ++ Text.quoted id
  | .cyclicRequirement path => "cyclic analysis requirement: " ++ Text.join " -> " path
  | .unnamedAnalysis name => name ++ " has no ID"
  | .noEntryMethod => "analysis context has no entry method"
  | .needsContext id => "program analysis " ++ Text.quoted id ++ " needs an analysis context"
  | .needsBody id => Text.quoted id ++ " is a method analysis; pass an IR"
  | .unrunnable id => "analysis " ++ Text.quoted id ++ " runs on neither methods nor programs"
  | .backward id => id ++ ": interprocedural analyses must be forward"
  | .duplicateMethod cls sig => cls.name ++ " already declares " ++ sig.text
  | .parameterNames method names params =>
      method.text ++ ": " ++ toString names ++ " parameter names for " ++ toString params ++ " parameters"
  | .assignedCall call => "call " ++ call.text ++ " must be an Invoke statement, not an assignment"
  | .duplicateLabel method label => method.text ++ ": label " ++ Text.quoted label ++ " defined twice"
  | .bodyFinished method => method.text ++ ": body already finished"
  | .danglingLabels method labels =>
      method.text ++ ": label(s) " ++ Text.join ", " labels ++ " do not precede any statement"
  | .undefinedLabel method label => method.text ++ ": jump to undefined label " ++ Text.quoted label
  | .noBody method => method.text ++ " has no body"
  | .jumpsNowhere method pos => method.text ++ ": statement " ++ toString pos ++ " jumps nowhere"
  | .notInGraph node method => node ++ " is not a node of the CFG of " ++ method.text
  | .notInIcfg node => node ++ " is not an ICFG node"
  | .methodNotInIcfg method => method.text ++ " is not part of the ICFG"
  | .danglingEdge => "an edge leads out of the graph"
  | .foreignCallSite site caller =>
      "call site " ++ site ++ " does not belong to " ++ (caller.map MethodRef.text).getD "None"
  | .unreachableCaller caller site => "caller " ++ caller.text ++ " of " ++ site ++ " is not reachable"
  | .arityMismatch site callee args =>
      site ++ " passes " ++ toString args ++ " argument(s) but " ++ callee.text ++ " declares " ++
        toString callee.arity ++ " parameter(s)"
  | .wrongStmt stmt => stmt ++ " is a statement of another sort"
  | .needsHierarchy => "virtual call resolution needs a class hierarchy"
  | .unmarkedMethod => "an edge joins a method that is not reachable"
  | .noConvergence id limit =>
      "analysis " ++ Text.quoted id ++ " did not converge in " ++ toString limit ++ " iterations"
  | .endless id => "analysis " ++ Text.quoted id ++ " never ends"
  | .notConstant value => value.text ++ " is not a constant"
  | .unordered name => "the values of " ++ Text.quoted name ++ " have no order"
  | .uncountable what => what ++ " cannot be gone through"
  | .noOperation what => "there is no operation " ++ Text.quoted what
  | .noTop => "top() not available for this lattice"
  | .wrongResult id => "the result of " ++ Text.quoted id ++ " is of another sort"
  | .noFact node => "there is no fact at " ++ node
  | .noLiveness node => "nothing is known of what is live after " ++ node
  | .noSource node => "there is no fact at a neighbour of " ++ node
  | .unbound name => "no " ++ name
  | .outOfRange i => "there is no place " ++ toString i

end Error

def ErrorCode.prefixed (c : ErrorCode) (message : String) : String := "[" ++ c.text ++ "] " ++ message

end Dataflow
