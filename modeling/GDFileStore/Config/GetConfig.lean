import GDFileStore.Objects.Order
import GDFileStore.Sequences.OrderedMap

/-! `GetConfig`: four sources for each name, in files that are kept in a cache of the process. -/
namespace GDFileStore
open Sequences

/-- `json`. Nothing looks into a number here, so that it is the text it was. -/
inductive Json
  | null
  | boolean (b : Bool)
  | number (text : Bytes)
  | string (s : Bytes)
  | array (elems : List Json)
  | object (fields : List (Bytes × Json))

namespace Json

/-- `empty()`, which no scalar but `null` is. -/
def empty : Json → Bool
  | null => true
  | array elems => elems.isEmpty
  | object fields => fields.isEmpty
  | _ => false

/-- `operator[]`, with what it makes of the value itself: a key that is missing comes in with
`null`, `null` becomes an object, and anything else but an object throws. -/
def index (key : Bytes) : Json → Option (Json × Json)
  | null => some (null,object [(key,null)])
  | object fields =>
    match fields.lookup key with
    | some value => some (value,object fields)
    | none => some (null,object (fields ++ [(key,null)]))
  | _ => none

/-- The value of a key, or `null`. -/
def field (key : Bytes) : Json → Json
  | object fields => (fields.lookup key).getD null
  | _ => null

/-- The value, where it is not empty. -/
def nonEmpty (j : Json) : Option Json := if j.empty then none else some j

def IsObject : Json → Prop
  | object _ => True
  | _ => False

/-- `operator[]` does not throw. -/
def Indexed (j : Json) : Prop := j = null ∨ j.IsObject

lemma eq_of_nonEmpty {j j' : Json} (h : j.nonEmpty = some j') : j = j' ∧ j'.empty = false := by
  rw [nonEmpty] at h
  split_ifs at h with he
  obtain rfl := Option.some.inj h
  exact ⟨rfl,by simpa using he⟩

/-- `operator[]` gives the value of the key and keeps the values of all keys. -/
lemma index_eq {j : Json} (hj : j.Indexed) (key : Bytes) : ∃ j',
    j.index key = some (j.field key,j') ∧ j'.Indexed ∧ ∀ k, j'.field k = j.field k := by
  cases j with
  | null =>
    refine ⟨_,rfl,.inr trivial,?_⟩
    intro k
    by_cases hk : k == key <;> simp [field,List.lookup_cons,hk]
  | object fields =>
    cases hfind : fields.lookup key with
    | some value => exact ⟨object fields,by simp [index,field,hfind],.inr trivial,fun _ => rfl⟩
    | none =>
      refine ⟨object (fields ++ [(key,null)]),by simp [index,field,hfind],.inr trivial,?_⟩
      intro k
      rw [field,field,List.lookup_append]
      by_cases hk : k == key <;> cases fields.lookup k <;> simp [List.lookup_cons,hk]
  | _ => rcases hj with hj | hj <;> cases hj

end Json

/-- The files that are there and hold JSON, by their paths. -/
abbrev ConfigFiles := Bytes → Option Json

/-- `GetConfigFromFile`, which is `null` of any other file. -/
def getConfigFromFile (files : ConfigFiles) (path : Bytes) : Json := (files path).getD .null

/-- What a name is looked up in. -/
inductive ConfigSource
  | integratedDefault
  | integrated
  | nameDefault
  | name

namespace ConfigSource

/-- `indexs`: a later one overloads those before. -/
def indexs : List ConfigSource := [integratedDefault,integrated,nameDefault,name]

/-- The key in the cache. -/
def index (n : Bytes) : ConfigSource → Bytes
  | integratedDefault => lit "integrated.default." ++ n
  | integrated => lit "integrated." ++ n
  | nameDefault => n ++ lit ".default"
  | name => n

/-- The file of a name. -/
def path (configRoot n : Bytes) : ConfigSource → Bytes
  | integratedDefault => configRoot ++ lit "/integrated.default.json"
  | integrated => configRoot ++ lit "/integrated.json"
  | nameDefault => configRoot ++ lit "/" ++ n ++ lit ".default.json"
  | name => configRoot ++ lit "/" ++ n ++ lit ".json"

end ConfigSource

/-- `cache` of `GetConfig`. -/
abbrev ConfigCache := OrderedMap Bytes.lt Json

namespace ConfigCache

/-- `cache[index]`, where a missing entry comes in with `null`. -/
def entry (cache : ConfigCache) (index : Bytes) : Json × ConfigCache :=
  match cache.find index with
  | some json => (json,cache)
  | none => (.null,cache.insert index .null)

/-- `(cache[index])[key]`. -/
def value (cache : ConfigCache) (index key : Bytes) : Option (Json × ConfigCache) := do
  let (json,cache) := cache.entry index
  let (value,json) ← json.index key
  return (value,cache.insert index json)

end ConfigCache

section getConfig
variable (files : ConfigFiles) (configRoot name key : Bytes) (reload : Bool)

/-- What is put into the cache for a source. -/
def ConfigSource.read (source : ConfigSource) : Option Json :=
  let json := getConfigFromFile files (source.path configRoot name)
  match source with
  | integratedDefault | integrated => (json.index name).map Prod.fst
  | nameDefault | .name => some json

/-- One of the four conditional assignments to the cache. -/
def refill (cache : ConfigCache) (source : ConfigSource) : Option ConfigCache :=
  let (json,cache) := cache.entry (source.index name)
  if json.empty || reload then
    (source.read files configRoot name).map (fun json => cache.insert (source.index name) json)
  else some cache

/-- One round of the loop over `indexs`. -/
def overload (source : ConfigSource) (ret : Json) (cache : ConfigCache) :
    Option (Json × ConfigCache) := do
  let (value,cache) ← cache.value (source.index name) key
  if value.empty then return (ret,cache) else cache.value (source.index name) key

/-- `GetConfig` without a default class. -/
def getConfigOfName (cache : ConfigCache) : Option (Json × ConfigCache) := do
  let cache ← ConfigSource.indexs.foldlM (refill files configRoot name reload) cache
  ConfigSource.indexs.foldlM (fun r source => overload name key source r.1 r.2) (.null,cache)

/-- `GetConfig`. The call for the default class has no default class of its own. -/
def getConfig (defaultClass : Bytes) (cache : ConfigCache) : Option (Json × ConfigCache) := do
  let (ret,cache) ← getConfigOfName files configRoot name key reload cache
  if ret.empty ∧ defaultClass ≠ [] then
    getConfigOfName files configRoot defaultClass key reload cache
  else return (ret,cache)

end getConfig

/-- The arguments of a call. -/
structure ConfigCall where
  name : Bytes
  key : Bytes
  defaultClass : Bytes := []

/-- The answers to calls without `reload`. -/
def getConfigs (files : ConfigFiles) (configRoot : Bytes) :
    List ConfigCall → ConfigCache → Option (List Json)
  | [],_ => some []
  | call::calls,cache => do
    let (ret,cache) ← getConfig files configRoot call.name call.key false call.defaultClass cache
    return ret::(← getConfigs files configRoot calls cache)

end GDFileStore
