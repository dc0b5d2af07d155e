import LolStreams.OrderedMap

/-! The JavaScript the page relies on: record fields that may be absent or null, and plain
objects used as maps from option names to flags. A property read falls back to
`Object.prototype`, and a plain object never owns `__proto__`. -/
namespace LolStreams

inductive JsError
  | typeError
  deriving DecidableEq, Repr

/-- A field of a record parsed from JSON. -/
inductive JsField (α : Type)
  | undefined
  | null
  | val (a : α)
  deriving DecidableEq, Repr

namespace JsField

/-- `x.f` for a further field `f` of `x`. -/
def deref {α : Type} : JsField α → Except JsError α
  | val a => .ok a
  | _ => .error .typeError

/-- The property name that `o[x]` uses. -/
def key {α : Type} [ToString α] : JsField α → String
  | undefined => "undefined"
  | null => "null"
  | val a => toString a

/-- `x == lit` for a string literal: neither `null` nor `undefined` equals a string. -/
def eqString (x : JsField String) (lit : String) : Bool :=
  match x with
  | val a => a = lit
  | _ => false

/-- `x == undefined`, which `null` also satisfies. -/
def eqUndefined {α : Type} : JsField α → Bool
  | val _ => false
  | _ => true

@[simp] theorem deref_val {α : Type} (a : α) : (val a).deref = .ok a := rfl

theorem eqString_iff {x : JsField String} {lit : String} : x.eqString lit = true ↔ x = val lit := by
  cases x <;> simp [eqString]

theorem key_of_eqString {x : JsField String} {lit : String} (h : x.eqString lit = true) :
    x.key = lit := by
  rw [eqString_iff.mp h]
  rfl

end JsField

/-- What a property read yields when it is not `undefined`. -/
inductive Value
  | bool (b : Bool)
  | builtin (name : String)
  deriving DecidableEq, Repr

def Value.truthy : Value → Bool
  | .bool b => b
  | .builtin _ => true

/-- Truthiness of a read, `none` being `undefined`. -/
def truthy : Option Value → Bool
  | none => false
  | some v => v.truthy

@[simp] theorem truthy_none : truthy none = false := rfl

@[simp] theorem truthy_bool (b : Bool) : truthy (some (.bool b)) = b := rfl

@[simp] theorem truthy_builtin (name : String) : truthy (some (.builtin name)) = true := rfl

/-- `x == 0` for a read `x`: only `false` converts to zero. -/
def eqZero : Option Value → Bool
  | some (.bool b) => !b
  | _ => false

/-- The property names an object literal inherits. -/
def objectPrototype : List String :=
  ["constructor", "__defineGetter__", "__defineSetter__", "hasOwnProperty", "__lookupGetter__",
    "__lookupSetter__", "isPrototypeOf", "propertyIsEnumerable", "toString", "valueOf",
    "__proto__", "toLocaleString"]

theorem proto_mem_objectPrototype : "__proto__" ∈ objectPrototype := by decide

structure JsObject where
  own : OrderedMap String Value
  proto_not_own : "__proto__" ∉ own.keys

namespace JsObject

def empty : JsObject := ⟨.empty, by decide⟩

def keys (o : JsObject) : List String := o.own.keys

/-- The own value of a property. -/
def owned (o : JsObject) (k : String) : Option Value := o.own.lookup k

def get (o : JsObject) (k : String) : Option Value :=
  match o.owned k with
  | some v => some v
  | none => if k ∈ objectPrototype then some (.builtin k) else none

/-- `o[k] = v`. The setter of `__proto__` ignores a flag. -/
def put (o : JsObject) (k : String) (v : Value) : JsObject :=
  if h : k = "__proto__" then o else
    ⟨o.own.set k v, by
      have hp := o.proto_not_own
      simp only [OrderedMap.mem_keys, OrderedMap.lookup_set, if_neg (Ne.symm h)] at hp ⊢
      exact hp⟩

/-- `o[k] ? o[k] = false : o[k] = true` -/
def toggle (o : JsObject) (k : String) : JsObject := o.put k (.bool !(truthy (o.get k)))

def delete (o : JsObject) (k : String) : JsObject :=
  ⟨o.own.erase k, by
    have hp := o.proto_not_own
    simp only [OrderedMap.mem_keys, OrderedMap.lookup_erase] at hp ⊢
    split_ifs
    · simp
    · exact hp⟩

@[simp] theorem owned_empty (k : String) : empty.owned k = none := rfl

@[simp] theorem keys_empty : empty.keys = [] := rfl

theorem mem_keys {o : JsObject} {k : String} : k ∈ o.keys ↔ (o.owned k).isSome :=
  OrderedMap.mem_keys

@[simp] theorem owned_proto (o : JsObject) : o.owned "__proto__" = none := by
  have hp := o.proto_not_own
  rwa [OrderedMap.mem_keys, Option.not_isSome_iff_eq_none] at hp

theorem owned_put (o : JsObject) (j k : String) (v : Value) :
    (o.put k v).owned j = if j = k ∧ k ≠ "__proto__" then some v else o.owned j := by
  unfold put
  split_ifs with hk hj hj
  · exact absurd hk hj.2
  · rfl
  · simp [owned, hj.1]
  · have hne : j ≠ k := fun h => hj ⟨h, hk⟩
    simp [owned, hne]

@[simp] theorem owned_delete (o : JsObject) (j k : String) :
    (o.delete k).owned j = if j = k then none else o.owned j :=
  OrderedMap.lookup_erase o.own j k

theorem get_of_owned {o : JsObject} {k : String} {v : Value} (h : o.owned k = some v) :
    o.get k = some v := by simp [get, h]

/-- Away from the inherited names a read sees own properties only. -/
theorem get_eq_owned {o : JsObject} {k : String} (h : k ∉ objectPrototype) :
    o.get k = o.owned k := by
  unfold get
  cases o.owned k <;> simp [h]

theorem get_eq_none {o : JsObject} {k : String} :
    o.get k = none ↔ o.owned k = none ∧ k ∉ objectPrototype := by
  unfold get
  cases o.owned k <;> simp

/-- Some own property is truthy. -/
def anySelected (o : JsObject) : Bool := o.keys.any fun k => truthy (o.get k)

theorem anySelected_iff {o : JsObject} :
    o.anySelected = true ↔ ∃ k v, o.owned k = some v ∧ v.truthy = true := by
  simp only [anySelected, List.any_eq_true, mem_keys, Option.isSome_iff_exists]
  constructor
  · rintro ⟨k, ⟨v, hv⟩, ht⟩
    exact ⟨k, v, hv, by simpa [get_of_owned hv, LolStreams.truthy] using ht⟩
  · rintro ⟨k, v, hv, ht⟩
    exact ⟨k, ⟨v, hv⟩, by simpa [get_of_owned hv, LolStreams.truthy] using ht⟩

/-- `for (var key in o) { if (o[key]) { return o[attr]; } }  return true;` with the keys
still to be visited; evaluating `attr` may throw. -/
def selectLoop (o : JsObject) (attr : Except JsError String) :
    List String → Except JsError (Option Value)
  | [] => .ok (some (.bool true))
  | k :: ks => if truthy (o.get k) then attr.map o.get else selectLoop o attr ks

def select (o : JsObject) (attr : Except JsError String) : Except JsError (Option Value) :=
  selectLoop o attr o.keys

theorem selectLoop_eq (o : JsObject) (attr : Except JsError String) (ks : List String) :
    selectLoop o attr ks =
      if ks.any (fun k => truthy (o.get k)) then attr.map o.get else .ok (some (.bool true)) := by
  induction ks with
  | nil => simp [selectLoop]
  | cons k ks ih =>
    simp only [selectLoop, List.any_cons, Bool.or_eq_true]
    by_cases h : truthy (o.get k) = true <;> simp [h, ih]

/-- Which selected key the loop meets first does not matter. -/
theorem select_eq (o : JsObject) (attr : Except JsError String) :
    o.select attr = if o.anySelected then attr.map o.get else .ok (some (.bool true)) :=
  selectLoop_eq o attr o.keys

end JsObject

/-- A filter function run over a scope variable that may still be undefined: `for in` over
`undefined` visits nothing. -/
def selectFrom (o : Option JsObject) (attr : Except JsError String) :
    Except JsError (Option Value) :=
  match o with
  | none => .ok (some (.bool true))
  | some o => o.select attr

@[simp] theorem selectFrom_none (attr : Except JsError String) :
    selectFrom none attr = .ok (some (.bool true)) := rfl

@[simp] theorem selectFrom_some (o : JsObject) (attr : Except JsError String) :
    selectFrom (some o) attr = o.select attr := rfl

/-- The list filter keeps an element when the predicate returns a truthy value. -/
def accepts (r : Except JsError (Option Value)) : Bool :=
  match r with
  | .ok v => truthy v
  | .error _ => false

end LolStreams
