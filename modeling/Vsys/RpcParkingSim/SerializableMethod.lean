import Vsys.RpcParkingSim.Reflection

/-! The wrapper that carries a method over an object stream. It holds the method
itself, or the three parts it is looked up from. -/

namespace Vsys.RpcParkingSim

inductive MethodException where
  | nullPointer
  | noSuchMethod
  deriving DecidableEq, Repr

/-- What stands for a method on the wire; a class, the list of parameter types and
each of its entries may be null. -/
structure Reference where
  declaringClass : Option ClassName
  methodName : String
  parameterTypes : Option (List (Option ClassName))
  deriving DecidableEq, Repr

structure SerializableMethod where
  method : Option Method
  declaringClass : Option ClassName
  methodName : Option String
  parameterTypes : Option (List (Option ClassName))
  deriving DecidableEq, Repr

namespace SerializableMethod

/-- `serialize(Method)`. -/
def ofMethod (m : Method) : SerializableMethod := ⟨some m, none, none, none⟩

/-- `serialize(Class, String, Class...)`. -/
def serialize (jvm : Jvm) (c : ClassName) (name : String) (types : List ClassName) :
    Except MethodException SerializableMethod :=
  match jvm.getMethod c name types with
  | some m => .ok (ofMethod m)
  | none => .error .noSuchMethod

def readObject (r : Reference) : SerializableMethod :=
  ⟨none, r.declaringClass, some r.methodName, r.parameterTypes⟩

def writeObject (m : SerializableMethod) : Except MethodException Reference :=
  match m.method with
  | some m => .ok ⟨some m.declaringClass, m.name, some (m.parameterTypes.map some)⟩
  | none => .error .nullPointer

def lookup (jvm : Jvm) (c : Option ClassName) (name : Option String)
    (types : Option (List (Option ClassName))) : Except MethodException Method :=
  match c, name with
  | some c, some name =>
    match (types.getD []).mapM id with
    | some types =>
      match jvm.getMethod c name types with
      | some m => .ok m
      | none => .error .noSuchMethod
    | none => .error .noSuchMethod
  | _, _ => .error .nullPointer

/-- `method()`: the parts are given up once the method is found. -/
def method_ (jvm : Jvm) (m : SerializableMethod) :
    Except MethodException (Method × SerializableMethod) :=
  match m.method with
  | some found => .ok (found, m)
  | none =>
    match lookup jvm m.declaringClass m.methodName m.parameterTypes with
    | .ok found => .ok (found, ⟨some found, none, none, none⟩)
    | .error e => .error e

theorem method_again {jvm : Jvm} {m m' : SerializableMethod} {found : Method}
    (h : m.method_ jvm = .ok (found, m')) : m'.method_ jvm = .ok (found, m') := by
  rw [method_] at h
  split at h
  · next hm =>
    cases h
    rw [method_, hm]
  · split at h
    · cases h
      rfl
    · cases h

theorem serialize_cases (jvm : Jvm) (c : ClassName) (name : String) (types : List ClassName) :
    (jvm.getMethod c name types = none ∧ serialize jvm c name types = .error .noSuchMethod) ∨
      ∃ m r, jvm.getMethod c name types ≠ none ∧ serialize jvm c name types = .ok m ∧
        m.writeObject = .ok r := by
  cases h : jvm.getMethod c name types with
  | none => exact Or.inl ⟨rfl, by rw [serialize, h]⟩
  | some m => exact Or.inr ⟨ofMethod m, _, nofun, by rw [serialize, h], rfl⟩

end SerializableMethod

def Reference.ResolvesTo (jvm : Jvm) (r : Reference) (m : Method) : Prop :=
  SerializableMethod.lookup jvm r.declaringClass (some r.methodName) r.parameterTypes = .ok m

theorem Reference.ResolvesTo.method_eq {jvm : Jvm} {r : Reference} {m : Method}
    (h : r.ResolvesTo jvm m) :
    (SerializableMethod.readObject r).method_ jvm = .ok (m, .ofMethod m) := by
  rw [Reference.ResolvesTo] at h
  rw [SerializableMethod.method_, SerializableMethod.readObject]
  simp only [h]
  rfl

theorem Reference.resolvesTo_of_method {jvm : Jvm} {r : Reference} {found : Method}
    {m : SerializableMethod} (h : (SerializableMethod.readObject r).method_ jvm = .ok (found, m)) :
    r.ResolvesTo jvm found := by
  simp only [SerializableMethod.method_, SerializableMethod.readObject] at h
  split at h
  · next hl =>
    cases h
    exact hl
  · cases h

end Vsys.RpcParkingSim
