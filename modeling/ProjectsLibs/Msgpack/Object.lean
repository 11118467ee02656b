/-
The objects of libmsgpack (object.h, objectc.c).

`Object β` is `msgpack_object`, where `β` is what the pointer and the size
of a string, a binary or an extension stand for: the bytes themselves, or
the place in a buffer where they are. A `double` is its 64 bits.

# Recursion

An object contains lists of objects, and a function on objects is
therefore three functions: on an object, on the items of an array and on
the pairs of a map. Lean's own induction principle for the type has three
motives to match; `induct` is the one that proofs use, with the property
given of all that a container holds. The depth counts containers, so that
a scalar has depth 0, and it is compared with the depth of the stack
elsewhere.

The parameter for the bodies lets one machine be looked at in two ways.
In the code a string is a pointer and a size; seen as bytes, through
`mapBody`, it is what the user of the library gets.
-/
import Mathlib.Data.UInt
import Mathlib.Tactic.Common

namespace ProjectsLibs.Msgpack

variable {β γ : Type}

/-- `msgpack_object`. -/
inductive Object (β : Type)
  | nil
  | boolean (b : Bool)
  | positiveInteger (u64 : UInt64)
  | negativeInteger (i64 : Int64)
  | float (f64 : UInt64)
  | str (body : β)
  | bin (body : β)
  | ext (type : Int8) (body : β)
  | array (items : List (Object β))
  | map (kvs : List (Object β × Object β))

/-- An object whose bodies are bytes. -/
abbrev Value := Object (List UInt8)

namespace Object

/-- Induction on an object: a container after all that is in it. -/
theorem induct {P : Object β → Prop} (nil : P .nil)
    (boolean : ∀ b, P (.boolean b))
    (positiveInteger : ∀ d, P (.positiveInteger d))
    (negativeInteger : ∀ d, P (.negativeInteger d))
    (float : ∀ d, P (.float d)) (str : ∀ b, P (.str b))
    (bin : ∀ b, P (.bin b)) (ext : ∀ t b, P (.ext t b))
    (array : ∀ items, (∀ o ∈ items, P o) → P (.array items))
    (map : ∀ kvs, (∀ kv ∈ kvs, P kv.1 ∧ P kv.2) → P (.map kvs)) :
    ∀ o, P o := by
  intro o
  refine @Object.rec β P (fun items => ∀ o ∈ items, P o)
    (fun kvs => ∀ kv ∈ kvs, P kv.1 ∧ P kv.2) (fun kv => P kv.1 ∧ P kv.2)
    nil boolean positiveInteger negativeInteger float str bin ext array map
    ?_ ?_ ?_ ?_ ?_ o
  · simp
  · intro o items ho hitems x hx
    rcases List.mem_cons.1 hx with rfl | hx
    · exact ho
    · exact hitems x hx
  · simp
  · intro kv kvs hkv hkvs x hx
    rcases List.mem_cons.1 hx with rfl | hx
    · exact hkv
    · exact hkvs x hx
  · exact fun k v hk hv => ⟨hk, hv⟩

-- ============================================================= the depth

mutual

/-- How deep containers are nested in an object. -/
def depth : Object β → Nat
  | .array items => depthItems items + 1
  | .map kvs => depthKvs kvs + 1
  | _ => 0

/-- The depth of the deepest item. -/
def depthItems : List (Object β) → Nat
  | [] => 0
  | o :: rest => max (depth o) (depthItems rest)

/-- The depth of the deepest key or value. -/
def depthKvs : List (Object β × Object β) → Nat
  | [] => 0
  | (k, v) :: rest => max (max (depth k) (depth v)) (depthKvs rest)

end

-- ================================================== what is in an object

mutual

/-- `P` holds of the object and of all that is in it. -/
def Every (P : Object β → Prop) : Object β → Prop
  | .array items => P (.array items) ∧ EveryItem P items
  | .map kvs => P (.map kvs) ∧ EveryKv P kvs
  | o => P o

def EveryItem (P : Object β → Prop) : List (Object β) → Prop
  | [] => True
  | o :: rest => Every P o ∧ EveryItem P rest

def EveryKv (P : Object β → Prop) : List (Object β × Object β) → Prop
  | [] => True
  | (k, v) :: rest => (Every P k ∧ Every P v) ∧ EveryKv P rest

end

/-- The property holds of the items if it holds of each. -/
theorem everyItem_iff {P : Object β → Prop} (items : List (Object β)) :
    EveryItem P items ↔ ∀ o ∈ items, Every P o := by
  induction items with
  | nil => simp [EveryItem]
  | cons o rest ih => rw [EveryItem, ih, List.forall_mem_cons]

theorem everyKv_iff {P : Object β → Prop}
    (kvs : List (Object β × Object β)) :
    EveryKv P kvs ↔ ∀ kv ∈ kvs, Every P kv.1 ∧ Every P kv.2 := by
  induction kvs with
  | nil => simp [EveryKv]
  | cons kv rest ih =>
      obtain ⟨k, v⟩ := kv
      rw [EveryKv, ih, List.forall_mem_cons]

-- ============================================================ the bodies

mutual

/-- The object with other bodies. -/
def mapBody (f : β → γ) : Object β → Object γ
  | .nil => .nil
  | .boolean b => .boolean b
  | .positiveInteger d => .positiveInteger d
  | .negativeInteger d => .negativeInteger d
  | .float d => .float d
  | .str body => .str (f body)
  | .bin body => .bin (f body)
  | .ext type body => .ext type (f body)
  | .array items => .array (mapItems f items)
  | .map kvs => .map (mapKvs f kvs)

/-- The items with other bodies. -/
def mapItems (f : β → γ) : List (Object β) → List (Object γ)
  | [] => []
  | o :: rest => mapBody f o :: mapItems f rest

/-- The keys and values with other bodies. -/
def mapKvs (f : β → γ) :
    List (Object β × Object β) → List (Object γ × Object γ)
  | [] => []
  | (k, v) :: rest => (mapBody f k, mapBody f v) :: mapKvs f rest

end

theorem mapItems_eq (f : β → γ) (items : List (Object β)) :
    mapItems f items = items.map (mapBody f) := by
  induction items with
  | nil => rw [mapItems, List.map_nil]
  | cons o rest ih => rw [mapItems, List.map_cons, ih]

theorem mapKvs_eq (f : β → γ) (kvs : List (Object β × Object β)) :
    mapKvs f kvs = kvs.map fun kv => (mapBody f kv.1, mapBody f kv.2) := by
  induction kvs with
  | nil => rw [mapKvs, List.map_nil]
  | cons kv rest ih => rw [mapKvs, List.map_cons, ih]

/-- Bodies that are not changed. -/
theorem mapBody_id (o : Object β) : mapBody id o = o := by
  induction o using Object.induct with
  | array items ih =>
      rw [mapBody, mapItems_eq, List.map_congr_left ih, List.map_id']
  | map kvs ih =>
      have hkvs : kvs.map (fun kv => (mapBody id kv.1, mapBody id kv.2))
          = kvs.map fun kv => kv :=
        List.map_congr_left fun kv hkv =>
          Prod.ext (ih kv hkv).1 (ih kv hkv).2
      rw [mapBody, mapKvs_eq, hkvs, List.map_id']
  | _ => simp [mapBody]

/-- Bodies changed twice. -/
theorem mapBody_mapBody {δ : Type} (g : γ → δ) (f : β → γ)
    (o : Object β) : mapBody g (mapBody f o) = mapBody (g ∘ f) o := by
  induction o using Object.induct with
  | array items ih =>
      rw [mapBody, mapBody, mapBody, mapItems_eq, mapItems_eq, mapItems_eq,
        List.map_map]
      exact congrArg _ (List.map_congr_left ih)
  | map kvs ih =>
      rw [mapBody, mapBody, mapBody, mapKvs_eq, mapKvs_eq, mapKvs_eq,
        List.map_map]
      refine congrArg _ (List.map_congr_left fun kv hkv => ?_)
      exact Prod.ext (ih kv hkv).1 (ih kv hkv).2
  | _ => simp [mapBody]

-- ============================================================== equality

mutual

/-- `msgpack_object_equal`, on objects whose bodies are bytes. `feq` is the
comparison of two `double`s. -/
def msgpackObjectEqual (feq : UInt64 → UInt64 → Bool) :
    Value → Value → Bool
  | .nil, .nil => true
  | .boolean x, .boolean y => x == y
  | .positiveInteger x, .positiveInteger y => x == y
  | .negativeInteger x, .negativeInteger y => x == y
  | .float x, .float y => feq x y
  | .str x, .str y => x.length == y.length && x == y
  | .bin x, .bin y => x.length == y.length && x == y
  | .ext t x, .ext u y => x.length == y.length && t == u && x == y
  | .array x, .array y => x.length == y.length && equalItems feq x y
  | .map x, .map y => x.length == y.length && equalKvs feq x y
  | _, _ => false

/-- The loop over the items. -/
def equalItems (feq : UInt64 → UInt64 → Bool) :
    List Value → List Value → Bool
  | x :: xs, y :: ys => msgpackObjectEqual feq x y && equalItems feq xs ys
  | _, _ => true

/-- The loop over the keys and values. -/
def equalKvs (feq : UInt64 → UInt64 → Bool) :
    List (Value × Value) → List (Value × Value) → Bool
  | (k, v) :: xs, (k', v') :: ys =>
      (msgpackObjectEqual feq k k' && msgpackObjectEqual feq v v')
        && equalKvs feq xs ys
  | _, _ => true

end

end Object

end ProjectsLibs.Msgpack
