import Vsys.RpcParkingSim.ParkingLotService

/-! Java reflection, as far as the RPC session uses it: `Class.getMethod` and
`Method.invoke` with the service as receiver. The classes outside the repository
are a parameter; the methods of `ParkingLotService` run as they are written. -/

namespace Vsys.RpcParkingSim

abbrev ClassName := String

def serviceClass : ClassName := "com.github.kochab.vsys.rpcparkingsim.ParkingLotService"

def objectClass : ClassName := "java.lang.Object"

structure Method where
  declaringClass : ClassName
  name : String
  parameterTypes : List ClassName
  isStatic : Bool
  deriving DecidableEq, Repr

inductive ServiceMethod where
  | in_
  | out
  | free
  | hello
  | exit
  deriving DecidableEq, Repr

namespace ServiceMethod

def all : List ServiceMethod := [in_, out, free, hello, exit]

def name : ServiceMethod → String
  | in_ => "in"
  | out => "out"
  | free => "free"
  | hello => "hello"
  | exit => "exit"

def parameterTypes : ServiceMethod → List ClassName
  | in_ | out => ["int"]
  | free | hello | exit => []

def method (s : ServiceMethod) : Method := ⟨serviceClass, s.name, s.parameterTypes, false⟩

end ServiceMethod

/-- How `toString()` of an object ends. An object that contains itself may end it in an
error of the virtual machine. -/
inductive Printing where
  | prints
  | throws
  | errs
  deriving DecidableEq, Repr

inductive Value where
  | null
  | integer (n : Int32)
  | short (n : Int16)
  | byte (n : Int8)
  | character (c : UInt16)
  | string (s : String)
  | object (c : ClassName) (printing : Printing)
  deriving DecidableEq, Repr

namespace Value

def toInt : Value → Option Int32
  | integer n => some n
  | short n => some n.toInt32
  | byte n => some n.toInt32
  | character c => some (.ofNat c.toNat)
  | _ => none

def printing : Value → Printing
  | object _ p => p
  | _ => .prints

def prints (v : Value) : Bool := v.printing = .prints

/-- `Arrays.toString` ends as the first element does that cannot be shown. -/
def arraysToString : List Value → Printing
  | [] => .prints
  | v :: vs =>
    match v.printing with
    | .prints => arraysToString vs
    | .throws => .throws
    | .errs => .errs

theorem arraysToString_eq_prints_iff {vs : List Value} :
    arraysToString vs = .prints ↔ vs.all prints = true := by
  induction vs with
  | nil => exact iff_of_true rfl rfl
  | cons v vs ih => cases hv : v.printing <;> simp [arraysToString, prints, hv, ih]

end Value

inductive Outcome where
  | returns (v : Value)
  | throws
  | errs
  | exits
  | hangs
  deriving DecidableEq, Repr

/-- The classes outside the repository: what `getMethod` finds in them, and whether
`invoke` may call a method they declare with the given arguments. -/
structure Jvm where
  foreign : ClassName → String → List ClassName → Option Method
  accepts : Method → List Value → Bool
  own : ∀ {c n ts m}, foreign c n ts = some m → m.declaringClass = serviceClass →
    ∃ s : ServiceMethod, m = s.method

def Jvm.bare : Jvm := ⟨fun _ _ _ => none, fun _ _ => false, nofun⟩

/-- `Class.getMethod`: a method `ParkingLotService` does not declare is looked up in
its superclass. -/
def Jvm.getMethod (jvm : Jvm) (c : ClassName) (name : String) (types : List ClassName) :
    Option Method :=
  if c = serviceClass then
    match ServiceMethod.all.find? fun s => s.name = name ∧ s.parameterTypes = types with
    | some s => some s.method
    | none => jvm.foreign objectClass name types
  else jvm.foreign c name types

/-- What one call meets besides its arguments: the lot as the other sessions left
it, how a method from outside the repository ends, and what the stream can write. -/
structure World where
  lot : SynchronizedParkingLot
  outcome : Method → List Value → Outcome
  writes : Value → Bool

def serviceIsInstance (c : ClassName) : Bool := c = serviceClass || c = objectClass

namespace ServiceMethod

def ofMethod (m : Method) : Option ServiceMethod := all.find? fun s => s.method = m

def call : ServiceMethod → List Value → SynchronizedParkingLot →
    Option (Outcome × SynchronizedParkingLot)
  | in_, [v], l => v.toInt.map fun n =>
    let r := ParkingLotService.in_ l n
    (.returns (.string r.1), r.2)
  | out, [v], l => v.toInt.map fun n =>
    let r := ParkingLotService.out l n
    (.returns (.string r.1), r.2)
  | free, [], l => some (.returns (.string (ParkingLotService.free l)), l)
  | hello, [], l => some (.returns (.string ParkingLotService.hello), l)
  | exit, [], l => some (.exits, l)
  | _, _, _ => none

@[simp] theorem ofMethod_method (s : ServiceMethod) : ofMethod s.method = some s := by
  cases s <;> decide

end ServiceMethod

structure Invoked where
  executed : List Method
  outcome : Outcome
  lot : SynchronizedParkingLot

/-- `Method.invoke` on the service. The receiver of an instance method is tested
before anything runs; a static method ignores it. -/
def invoke (jvm : Jvm) (world : World) (m : Method) (args : List Value) : Invoked :=
  if m.isStatic = false ∧ serviceIsInstance m.declaringClass = false then
    ⟨[], .throws, world.lot⟩
  else
    match ServiceMethod.ofMethod m with
    | some s =>
      match s.call args world.lot with
      | some (o, l) => ⟨[m], o, l⟩
      | none => ⟨[], .throws, world.lot⟩
    | none =>
      if jvm.accepts m args then ⟨[m], world.outcome m args, world.lot⟩
      else ⟨[], .throws, world.lot⟩

theorem invoke_service (jvm : Jvm) (world : World) (s : ServiceMethod) (args : List Value) :
    invoke jvm world s.method args =
      match s.call args world.lot with
      | some (o, l) => ⟨[s.method], o, l⟩
      | none => ⟨[], .throws, world.lot⟩ := by
  have hinstance : serviceIsInstance s.method.declaringClass = true :=
    show serviceIsInstance serviceClass = true by decide
  rw [invoke, if_neg fun h => Bool.false_ne_true (h.2.symm.trans hinstance),
    ServiceMethod.ofMethod_method]

theorem serviceIsInstance_iff {c : ClassName} :
    serviceIsInstance c = true ↔ c = serviceClass ∨ c = objectClass := by
  rw [serviceIsInstance, Bool.or_eq_true, decide_eq_true_iff, decide_eq_true_iff]

theorem invoke_executed {jvm : Jvm} {world : World} {m n : Method} {args : List Value}
    (h : n ∈ (invoke jvm world m args).executed) :
    (invoke jvm world m args).executed = [n] ∧ n = m ∧
      (m.isStatic = true ∨ serviceIsInstance m.declaringClass = true) := by
  by_cases hreceiver : m.isStatic = false ∧ serviceIsInstance m.declaringClass = false
  · rw [invoke, if_pos hreceiver] at h
    cases h
  · have hallowed : m.isStatic = true ∨ serviceIsInstance m.declaringClass = true := by
      rw [not_and_or, Bool.not_eq_false, Bool.not_eq_false] at hreceiver
      exact hreceiver
    rw [invoke, if_neg hreceiver] at h ⊢
    split at h
    · split at h
      · obtain rfl := List.mem_singleton.mp h
        exact ⟨rfl, rfl, hallowed⟩
      · cases h
    · split at h
      · next hacc =>
        obtain rfl := List.mem_singleton.mp h
        exact ⟨by rw [if_pos hacc], rfl, hallowed⟩
      · cases h

end Vsys.RpcParkingSim
