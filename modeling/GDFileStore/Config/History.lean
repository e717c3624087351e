import GDFileStore.Config.GetConfig

/-! The answers of `GetConfig` against the files themselves, whatever was asked before. -/
namespace GDFileStore
open Sequences

section rule
variable (files : ConfigFiles) (configRoot : Bytes)

/-- What a source holds for a name. -/
def ConfigSource.content (name : Bytes) (source : ConfigSource) : Json :=
  let json := getConfigFromFile files (source.path configRoot name)
  match source with
  | integratedDefault | integrated => json.field name
  | nameDefault | .name => json

/-- The value of a key in a source, where it is there and not empty. -/
def ConfigSource.given (name key : Bytes) (source : ConfigSource) : Option Json :=
  ((source.content files configRoot name).field key).nonEmpty

/-- The value in the last source that has one. -/
def lastGiven (name key : Bytes) : Option Json :=
  ConfigSource.indexs.reverse.findSome? (ConfigSource.given files configRoot name key)

/-- What a call is to return. -/
def ConfigCall.configured (call : ConfigCall) : Json :=
  let given := lastGiven files configRoot call.name call.key
  let default := if call.defaultClass = [] then none
    else lastGiven files configRoot call.defaultClass call.key
  (given.or default).getD .null

/-- The names that a call looks its key up under. -/
def ConfigCall.lookups (call : ConfigCall) : List (Bytes × Bytes) :=
  if lastGiven files configRoot call.name call.key = none ∧ call.defaultClass ≠ [] then
    [(call.name,call.key),(call.defaultClass,call.key)]
  else [(call.name,call.key)]

/-- Every file holds an object, and the two integrated ones an object for each name. -/
structure ObjectFiles : Prop where
  object : ∀ path json, files path = some json → json.IsObject
  names : ∀ source ∈ [ConfigSource.integratedDefault,.integrated], ∀ name fields,
    files (source.path configRoot name) = some (.object fields) → ∀ e ∈ fields, e.2.IsObject

/-- Where a source of the earlier name has the place in the cache of a source of the later one, the
key that is looked up has the same value in both. -/
def Undisturbed (earlier later : Bytes × Bytes) : Prop :=
  ∀ source source' : ConfigSource, source.index earlier.1 = source'.index later.1 →
    source.given files configRoot earlier.1 later.2 = source'.given files configRoot later.1 later.2

/-- Every entry of the cache is for a source of a name that was looked up, and has its values. -/
def Filled (past : List (Bytes × Bytes)) (cache : ConfigCache) : Prop :=
  ∀ index json, cache.find index = some json → json.Indexed ∧
    ∃ lookup ∈ past, ∃ source : ConfigSource, source.index lookup.1 = index ∧
      ∀ k, json.field k = (source.content files configRoot lookup.1).field k

end rule

namespace ConfigSource
variable {files : ConfigFiles} {configRoot : Bytes} (name : Bytes) (source : ConfigSource)

lemma length_index : (source.index name).length = name.length +
    match source with
    | integratedDefault => 19
    | integrated => 11
    | nameDefault => 8
    | .name => 0 := by
  cases source with
  | name => rfl
  | _ =>
    rw [index,List.length_append]
    simp [lit,Nat.add_comm]

/-- The four sources of a name have different places in the cache. -/
lemma index_injective {name : Bytes} {source source' : ConfigSource}
    (h : source.index name = source'.index name) : source = source' := by
  have hlen := congrArg List.length h
  rw [length_index,length_index] at hlen
  cases source <;> cases source' <;> first | rfl | (simp at hlen)

lemma getConfigFromFile_indexed (hfiles : ObjectFiles files configRoot) (path : Bytes) :
    (getConfigFromFile files path).Indexed := by
  cases hfile : files path with
  | none => exact .inl (by rw [getConfigFromFile,hfile,Option.getD_none])
  | some json =>
    rw [getConfigFromFile,hfile]
    exact .inr (hfiles.object path json hfile)

lemma field_indexed (hfiles : ObjectFiles files configRoot)
    (hsource : source ∈ [integratedDefault,integrated]) :
    ((getConfigFromFile files (source.path configRoot name)).field name).Indexed := by
  cases hfile : files (source.path configRoot name) with
  | none => exact .inl (by rw [getConfigFromFile,hfile]; rfl)
  | some json =>
    have hobject := hfiles.object _ json hfile
    rw [getConfigFromFile,hfile]
    cases json with
    | object fields =>
      cases hfind : fields.lookup name with
      | none => exact .inl (by simp [Json.field,hfind])
      | some value =>
        obtain ⟨l,l',rfl,-⟩ := List.lookup_eq_some_iff.1 hfind
        have hvalue := hfiles.names source hsource name _ hfile (name,value) (by simp)
        exact .inr (by simpa [Json.field,hfind] using hvalue)
    | _ => exact hobject.elim

lemma content_indexed (hfiles : ObjectFiles files configRoot) :
    (source.content files configRoot name).Indexed := by
  cases source with
  | integratedDefault => exact field_indexed name integratedDefault hfiles (by simp)
  | integrated => exact field_indexed name integrated hfiles (by simp)
  | nameDefault => exact getConfigFromFile_indexed hfiles _
  | name => exact getConfigFromFile_indexed hfiles _

/-- What is put into the cache is what the source holds. -/
lemma read_eq (hfiles : ObjectFiles files configRoot) :
    source.read files configRoot name = some (source.content files configRoot name) := by
  have hindex := Json.index_eq
    (getConfigFromFile_indexed hfiles (source.path configRoot name)) name
  obtain ⟨json,hindex,-⟩ := hindex
  cases source with
  | integratedDefault => simp only [read,content,hindex,Option.map_some]
  | integrated => simp only [read,content,hindex,Option.map_some]
  | nameDefault => rfl
  | name => rfl

end ConfigSource

namespace ConfigCache
variable {cache : ConfigCache} {index : Bytes}

lemma entry_of_find {json : Json} (h : cache.find index = some json) :
    cache.entry index = (json,cache) := by rw [entry,h]

lemma entry_of_not_find (h : cache.find index = none) :
    cache.entry index = (.null,cache.insert index .null) := by rw [entry,h]

/-- An entry is looked up with its value, and no entry's values change. -/
lemma value_eq {json : Json} (h : cache.find index = some json) (hjson : json.Indexed)
    (key : Bytes) : ∃ json', cache.value index key =
      some (json.field key,cache.insert index json') ∧ json'.Indexed ∧
        ∀ k, json'.field k = json.field k := by
  obtain ⟨json',hindex,hindexed,hsame⟩ := Json.index_eq hjson key
  refine ⟨json',?_,hindexed,hsame⟩
  rw [value,entry_of_find h]
  simp [hindex]

end ConfigCache

namespace Filled
variable {files : ConfigFiles} {configRoot name key : Bytes} {past : List (Bytes × Bytes)}
  {cache : ConfigCache} {source : ConfigSource}

lemma start : Filled files configRoot [] ∅ := nofun

lemma mono (hf : Filled files configRoot past cache) (lookups : List (Bytes × Bytes)) :
    Filled files configRoot (past ++ lookups) cache := by
  intro index json hfind
  obtain ⟨hindexed,lookup,hmem,hsource⟩ := hf index json hfind
  exact ⟨hindexed,lookup,List.mem_append_left _ hmem,hsource⟩

/-- An entry is given the values of a source whose place it is. -/
lemma put (hf : Filled files configRoot past cache) {cache' : ConfigCache} {index : Bytes}
    {json : Json} (hfind : ∀ q, cache'.find q = if q = index then some json else cache.find q)
    (hjson : json.Indexed) (hsource : ∃ lookup ∈ past, ∃ source : ConfigSource,
      source.index lookup.1 = index ∧
        ∀ k, json.field k = (source.content files configRoot lookup.1).field k) :
    Filled files configRoot past cache' := by
  intro index' json' hfind'
  rw [hfind] at hfind'
  split_ifs at hfind' with heq
  · obtain rfl := Option.some.inj hfind'
    rw [heq]
    exact ⟨hjson,hsource⟩
  · exact hf index' json' hfind'

/-- One conditional assignment. -/
lemma refill (hf : Filled files configRoot past cache) (hfiles : ObjectFiles files configRoot)
    (hpast : (name,key) ∈ past) (source : ConfigSource) : ∃ cache',
      GDFileStore.refill files configRoot name false cache source = some cache' ∧
        Filled files configRoot past cache' ∧ (cache'.find (source.index name)).isSome ∧
        ∀ index, (cache.find index).isSome → (cache'.find index).isSome := by
  have hread := source.read_eq name hfiles
  have hput : ∀ cache' : ConfigCache, (∀ q, cache'.find q = if q = source.index name then
      some (source.content files configRoot name) else cache.find q) →
      Filled files configRoot past cache' ∧ (cache'.find (source.index name)).isSome ∧
        ∀ index, (cache.find index).isSome → (cache'.find index).isSome := by
    intro cache' hfind
    refine ⟨hf.put hfind (source.content_indexed name hfiles)
      ⟨(name,key),hpast,source,rfl,fun _ => rfl⟩,?_,?_⟩
    · rw [hfind,if_pos rfl]
      rfl
    · intro index hindex
      rw [hfind]
      split_ifs
      · rfl
      · exact hindex
  cases hfind : cache.find (source.index name) with
  | none =>
    rw [GDFileStore.refill,ConfigCache.entry_of_not_find hfind,hread]
    refine ⟨_,rfl,hput _ ?_⟩
    intro q
    rw [OrderedMap.find_insert,OrderedMap.find_insert]
    split_ifs <;> rfl
  | some json =>
    cases hempty : json.empty with
    | true =>
      refine ⟨_,?_,hput _ (fun q => cache.find_insert _ q _)⟩
      simp [GDFileStore.refill,ConfigCache.entry_of_find hfind,hread,hempty]
    | false =>
      refine ⟨cache,?_,hf,by rw [hfind]; rfl,fun _ h => h⟩
      simp [GDFileStore.refill,ConfigCache.entry_of_find hfind,hempty]

/-- The assignments for some sources leave an entry for each. -/
lemma refills (hf : Filled files configRoot past cache) (hfiles : ObjectFiles files configRoot)
    (hpast : (name,key) ∈ past) (sources : List ConfigSource) : ∃ cache',
      sources.foldlM (GDFileStore.refill files configRoot name false) cache = some cache' ∧
        Filled files configRoot past cache' ∧
        (∀ source ∈ sources, (cache'.find (source.index name)).isSome) ∧
        ∀ index, (cache.find index).isSome → (cache'.find index).isSome := by
  induction sources generalizing cache with
  | nil => exact ⟨cache,rfl,hf,nofun,fun _ h => h⟩
  | cons source sources ih =>
    obtain ⟨cache₁,hrefill,hf₁,hthere,hkeep₁⟩ := hf.refill hfiles hpast source
    obtain ⟨cache₂,hrefills,hf₂,hall,hkeep₂⟩ := ih hf₁
    refine ⟨cache₂,?_,hf₂,?_,fun index h => hkeep₂ index (hkeep₁ index h)⟩
    · rw [List.foldlM_cons,hrefill]
      exact hrefills
    · intro source' hmem
      rcases List.mem_cons.1 hmem with rfl | hmem
      · exact hkeep₂ _ hthere
      · exact hall source' hmem

/-- An entry of the name has the value of the key that its own source gives. -/
lemma given_eq (hf : Filled files configRoot (past ++ [(name,key)]) cache)
    (hapart : ∀ lookup ∈ past, Undisturbed files configRoot lookup (name,key)) {json : Json}
    (hfind : cache.find (source.index name) = some json) :
    (json.field key).nonEmpty = source.given files configRoot name key := by
  obtain ⟨-,lookup,hmem,source',hindex,hfield⟩ := hf _ json hfind
  rw [hfield key]
  rcases List.mem_append.1 hmem with hmem | hmem
  · exact hapart lookup hmem source' source hindex
  · obtain rfl := List.mem_singleton.1 hmem
    rw [ConfigSource.index_injective hindex]
    rfl

/-- An entry is looked up, with its value, and the cache stays as good. -/
lemma value (hf : Filled files configRoot past cache) {index : Bytes} {json : Json}
    (hfind : cache.find index = some json) (key : Bytes) : ∃ json' cache',
      cache.value index key = some (json.field key,cache') ∧ cache'.find index = some json' ∧
        json'.field key = json.field key ∧ Filled files configRoot past cache' ∧
        ∀ index, (cache.find index).isSome → (cache'.find index).isSome := by
  obtain ⟨hjson,lookup,hmem,source,hsource,hfield⟩ := hf index json hfind
  obtain ⟨json',hvalue,hjson',hsame⟩ := ConfigCache.value_eq hfind hjson key
  refine ⟨json',_,hvalue,?_,hsame key,?_,?_⟩
  · rw [OrderedMap.find_insert,if_pos rfl]
  · exact hf.put (fun q => cache.find_insert _ q _) hjson'
      ⟨lookup,hmem,source,hsource,fun k => (hsame k).trans (hfield k)⟩
  · intro index' h
    rw [OrderedMap.find_insert]
    split_ifs
    · rfl
    · exact h

/-- One round of the loop. -/
lemma overload (hf : Filled files configRoot (past ++ [(name,key)]) cache)
    (hapart : ∀ lookup ∈ past, Undisturbed files configRoot lookup (name,key))
    (hthere : (cache.find (source.index name)).isSome) (ret : Json) : ∃ cache',
      GDFileStore.overload name key source ret cache =
        some ((source.given files configRoot name key).getD ret,cache') ∧
        Filled files configRoot (past ++ [(name,key)]) cache' ∧
        ∀ index, (cache.find index).isSome → (cache'.find index).isSome := by
  obtain ⟨json,hfind⟩ := Option.isSome_iff_exists.1 hthere
  obtain ⟨json₁,cache₁,hvalue₁,hfind₁,hsame,hf₁,hkeep₁⟩ := hf.value hfind key
  rw [← hf.given_eq hapart hfind]
  cases hempty : (json.field key).empty with
  | true =>
    refine ⟨cache₁,?_,hf₁,hkeep₁⟩
    simp [GDFileStore.overload,hvalue₁,hempty,Json.nonEmpty]
  | false =>
    obtain ⟨-,cache₂,hvalue₂,-,-,hf₂,hkeep₂⟩ := hf₁.value hfind₁ key
    refine ⟨cache₂,?_,hf₂,fun index h => hkeep₂ index (hkeep₁ index h)⟩
    simp [GDFileStore.overload,hvalue₁,hvalue₂,hsame,hempty,Json.nonEmpty]

/-- The loop keeps the value of the last source that has one. -/
lemma overloads (hf : Filled files configRoot (past ++ [(name,key)]) cache)
    (hapart : ∀ lookup ∈ past, Undisturbed files configRoot lookup (name,key))
    (sources : List ConfigSource)
    (hthere : ∀ source ∈ sources, (cache.find (source.index name)).isSome) (ret : Json) :
    ∃ cache', sources.foldlM (fun r source => GDFileStore.overload name key source r.1 r.2)
        (ret,cache) = some ((sources.reverse.findSome?
          (ConfigSource.given files configRoot name key)).getD ret,cache') ∧
      Filled files configRoot (past ++ [(name,key)]) cache' := by
  induction sources generalizing ret cache with
  | nil => exact ⟨cache,rfl,hf⟩
  | cons source sources ih =>
    obtain ⟨cache₁,hround,hf₁,hkeep⟩ := hf.overload hapart (hthere source List.mem_cons_self) ret
    obtain ⟨cache₂,hrounds,hf₂⟩ := ih hf₁
      (fun source' hmem => hkeep _ (hthere source' (List.mem_cons_of_mem _ hmem)))
      ((source.given files configRoot name key).getD ret)
    refine ⟨cache₂,?_,hf₂⟩
    rw [List.foldlM_cons,hround]
    refine hrounds.trans ?_
    rw [List.reverse_cons,List.findSome?_append]
    cases sources.reverse.findSome? (ConfigSource.given files configRoot name key) <;> simp

/-- A name is looked up. -/
lemma getConfigOfName (hf : Filled files configRoot past cache)
    (hfiles : ObjectFiles files configRoot)
    (hapart : ∀ lookup ∈ past, Undisturbed files configRoot lookup (name,key)) : ∃ cache',
      GDFileStore.getConfigOfName files configRoot name key false cache =
        some ((lastGiven files configRoot name key).getD .null,cache') ∧
        Filled files configRoot (past ++ [(name,key)]) cache' := by
  obtain ⟨cache₁,hrefills,hf₁,hthere,-⟩ := (hf.mono [(name,key)]).refills hfiles
    (List.mem_append_right past List.mem_cons_self) ConfigSource.indexs
  obtain ⟨cache₂,hrounds,hf₂⟩ := hf₁.overloads hapart ConfigSource.indexs hthere .null
  refine ⟨cache₂,?_,hf₂⟩
  rw [GDFileStore.getConfigOfName,hrefills]
  exact hrounds

/-- One call. -/
lemma getConfig (hf : Filled files configRoot past cache) (hfiles : ObjectFiles files configRoot)
    {call : ConfigCall}
    (hapart : (past ++ call.lookups files configRoot).Pairwise (Undisturbed files configRoot)) :
    ∃ cache', GDFileStore.getConfig files configRoot call.name call.key false call.defaultClass
        cache = some (call.configured files configRoot,cache') ∧
      Filled files configRoot (past ++ call.lookups files configRoot) cache' := by
  rw [GDFileStore.getConfig,ConfigCall.configured]
  obtain ⟨-,hlookups,hpast⟩ := List.pairwise_append.1 hapart
  have hname : (call.name,call.key) ∈ call.lookups files configRoot := by
    rw [ConfigCall.lookups]
    split_ifs <;> exact List.mem_cons_self
  obtain ⟨cache₁,hret,hf₁⟩ := hf.getConfigOfName hfiles (fun l hl => hpast l hl _ hname)
  rw [hret]
  cases hgiven : lastGiven files configRoot call.name call.key with
  | some value =>
    obtain ⟨source,-,hvalue⟩ := List.exists_of_findSome?_eq_some hgiven
    have hempty : value.empty = false := (Json.eq_of_nonEmpty hvalue).2
    refine ⟨cache₁,by simp [hempty],?_⟩
    rw [ConfigCall.lookups,hgiven,if_neg (by simp)]
    exact hf₁
  | none =>
    by_cases hdefault : call.defaultClass = []
    · refine ⟨cache₁,by simp [hdefault],?_⟩
      rw [ConfigCall.lookups,if_neg (fun h => h.2 hdefault)]
      exact hf₁
    · have htwo : call.lookups files configRoot =
          [(call.name,call.key),(call.defaultClass,call.key)] :=
        if_pos ⟨hgiven,hdefault⟩
      rw [htwo] at hlookups hpast ⊢
      have hdefaults : ∀ lookup ∈ past ++ [(call.name,call.key)],
          Undisturbed files configRoot lookup (call.defaultClass,call.key) := by
        intro lookup hmem
        rcases List.mem_append.1 hmem with hmem | hmem
        · exact hpast lookup hmem _ (by simp)
        · obtain rfl := List.mem_singleton.1 hmem
          exact List.rel_of_pairwise_cons hlookups List.mem_cons_self
      obtain ⟨cache₂,hret₂,hf₂⟩ := hf₁.getConfigOfName hfiles hdefaults
      refine ⟨cache₂,?_,by simpa using hf₂⟩
      simp [Json.empty,hdefault,hret₂]

/-- Any number of calls. -/
lemma getConfigs (hf : Filled files configRoot past cache) (hfiles : ObjectFiles files configRoot)
    {calls : List ConfigCall}
    (hapart : (past ++ calls.flatMap (ConfigCall.lookups files configRoot)).Pairwise
      (Undisturbed files configRoot)) :
    GDFileStore.getConfigs files configRoot calls cache =
      some (calls.map (ConfigCall.configured files configRoot)) := by
  induction calls generalizing past cache with
  | nil => rfl
  | cons call calls ih =>
    rw [List.flatMap_cons,← List.append_assoc] at hapart
    obtain ⟨cache',hcall,hf'⟩ := hf.getConfig hfiles (List.pairwise_append.1 hapart).1
    rw [GDFileStore.getConfigs,hcall]
    simp [ih hf' hapart]

end Filled

/-- A name without a dot, other than "default". -/
def PlainName (name : Bytes) : Prop := 46 ∉ name ∧ name ≠ lit "default"

instance : DecidablePred PlainName := fun _ => inferInstanceAs (Decidable (_ ∧ _))

lemma ConfigSource.count_index {name : Bytes} (hname : 46 ∉ name) (source : ConfigSource) :
    (source.index name).count 46 =
      match source with
      | integratedDefault => 2
      | integrated | nameDefault => 1
      | .name => 0 := by
  have hzero := List.count_eq_zero.2 hname
  cases source with
  | name => exact hzero
  | _ =>
    rw [index,List.count_append,hzero]
    rfl

lemma PlainName.integrated_ne {m n : Bytes} (hm : PlainName m) (hn : PlainName n) :
    ConfigSource.integrated.index m ≠ ConfigSource.nameDefault.index n := by
  intro heq
  rcases List.append_eq_append_iff.1 heq with ⟨a,hdot,-⟩ | ⟨a,hdot,hend⟩
  · refine hn.1 ?_
    rw [hdot]
    exact List.mem_append_left _ (by decide)
  · cases a with
    | nil =>
      rw [List.append_nil] at hdot
      exact hn.1 (hdot ▸ by decide)
    | cons b a =>
      have hend' : lit "default" = a ++ m := (List.cons.inj hend).2
      rcases List.eq_nil_or_concat a with rfl | ⟨a',c,rfl⟩
      · exact hm.2 hend'.symm
      · -- the dot of "integrated." would be in "default"
        have hlast : (lit "integrated.").getLast? = some c := by
          rw [hdot,List.concat_eq_append,← List.cons_append,← List.append_assoc]
          exact List.getLast?_concat
        obtain rfl : (46 : UInt8) = c := Option.some.inj hlast
        have hmem : (46 : UInt8) ∈ lit "default" := by
          rw [hend']
          simp
        exact absurd hmem (by decide)

/-- Names without dots do not take each other's places. -/
lemma undisturbed_of_plain {files : ConfigFiles} {configRoot : Bytes}
    {earlier later : Bytes × Bytes} (h : PlainName earlier.1) (h' : PlainName later.1) :
    Undisturbed files configRoot earlier later := by
  intro source source' heq
  have hcount := congrArg (List.count 46) heq
  rw [ConfigSource.count_index h.1,ConfigSource.count_index h'.1] at hcount
  have hsame : source = source' := by
    cases source <;> cases source' <;> first
      | rfl
      | exact absurd hcount (by decide)
      | exact absurd heq (h.integrated_ne h')
      | exact absurd heq.symm (h'.integrated_ne h)
  obtain rfl := hsame
  have hname : earlier.1 = later.1 := by
    cases source with
    | integratedDefault => exact List.append_cancel_left heq
    | integrated => exact List.append_cancel_left heq
    | nameDefault => exact List.append_cancel_right heq
    | name => exact heq
  rw [hname]

lemma pairwise_of_plain {files : ConfigFiles} {configRoot : Bytes} {calls : List ConfigCall}
    (hplain : ∀ call ∈ calls, PlainName call.name ∧ PlainName call.defaultClass) :
    (calls.flatMap (ConfigCall.lookups files configRoot)).Pairwise
      (Undisturbed files configRoot) := by
  have hnames : ∀ lookup ∈ calls.flatMap (ConfigCall.lookups files configRoot),
      PlainName lookup.1 := by
    intro lookup hmem
    obtain ⟨call,hcall,hmem⟩ := List.mem_flatMap.1 hmem
    obtain ⟨hname,hdefault⟩ := hplain call hcall
    rw [ConfigCall.lookups] at hmem
    split_ifs at hmem
    · rcases List.mem_pair.1 hmem with rfl | rfl
      · exact hname
      · exact hdefault
    · obtain rfl := List.mem_singleton.1 hmem
      exact hname
  exact List.pairwise_of_forall_mem_list
    (fun _ h _ h' => undisturbed_of_plain (hnames _ h) (hnames _ h'))

/-- By plain names each call gets what the files hold for it, whatever was asked before. -/
theorem getConfigs_eq_of_plain {files : ConfigFiles} {configRoot : Bytes}
    (hfiles : ObjectFiles files configRoot) {calls : List ConfigCall}
    (hplain : ∀ call ∈ calls, PlainName call.name ∧ PlainName call.defaultClass) :
    getConfigs files configRoot calls ∅ =
      some (calls.map (ConfigCall.configured files configRoot)) :=
  Filled.start.getConfigs hfiles (pairwise_of_plain hplain)

/-- Two configuration files. -/
def osdFiles : ConfigFiles := fun path =>
  if path = lit "/config/integrated.json" then
    some (.object [(lit "osd",.object [(lit "ip",.string (lit "a")),(lit "port",.null)])])
  else if path = lit "/config/integrated.osd.json" then
    some (.object [(lit "ip",.string (lit "b"))])
  else none

lemma osdFiles_object : ObjectFiles osdFiles (lit "/config") where
  object path json hfile := by
    rw [osdFiles] at hfile
    split_ifs at hfile <;> (obtain rfl := Option.some.inj hfile; trivial)
  names source hsource name fields hfile := by
    rcases List.mem_pair.1 hsource with rfl | rfl
    · cases hfile
    · cases hfile
      intro e he
      obtain rfl := List.mem_singleton.1 he
      trivial

/-- So it is by any names, where none that is looked up takes another one's place in the cache with
another value of the key. -/
theorem getConfigs_eq {files : ConfigFiles} {configRoot : Bytes}
    (hfiles : ObjectFiles files configRoot) {calls : List ConfigCall}
    (hapart : (calls.flatMap (ConfigCall.lookups files configRoot)).Pairwise
      (Undisturbed files configRoot)) :
    getConfigs files configRoot calls ∅ =
      some (calls.map (ConfigCall.configured files configRoot)) :=
  Filled.start.getConfigs hfiles hapart

/-- A name without files of its own, after the name that is its default class. -/
theorem getConfigs_eq_default : getConfigs osdFiles (lit "/config")
    [⟨lit "osd",lit "ip",[]⟩,⟨lit "osd0",lit "ip",lit "osd"⟩,⟨lit "osd",lit "port",[]⟩] ∅ =
      some [.string (lit "a"),.string (lit "a"),.null] := by
  refine (getConfigs_eq osdFiles_object (pairwise_of_plain ?_)).trans (by rfl)
  intro call hcall
  simp only [List.mem_cons,List.not_mem_nil,or_false] at hcall
  rcases hcall with rfl | rfl | rfl <;> decide +kernel

/-- The entry "integrated.osd" is what integrated.json holds for the name osd, and what the file of
the name integrated.osd holds. -/
theorem getConfigs_disturbed : ¬ ∀ files configRoot calls, ObjectFiles files configRoot →
    getConfigs files configRoot calls ∅ =
      some (calls.map (ConfigCall.configured files configRoot)) := by
  intro hclaim
  have hanswers := hclaim osdFiles (lit "/config")
    [⟨lit "osd",lit "ip",[]⟩,⟨lit "integrated.osd",lit "ip",[]⟩] osdFiles_object
  have hcached : getConfigs osdFiles (lit "/config")
      [⟨lit "osd",lit "ip",[]⟩,⟨lit "integrated.osd",lit "ip",[]⟩] ∅ =
        some [.string (lit "a"),.string (lit "a")] := by rfl
  have hfiles : [ConfigCall.mk (lit "osd") (lit "ip") [],⟨lit "integrated.osd",lit "ip",[]⟩].map
      (ConfigCall.configured osdFiles (lit "/config")) =
        [.string (lit "a"),.string (lit "b")] := by rfl
  rw [hcached,hfiles] at hanswers
  exact absurd hanswers (by simp [lit])

end GDFileStore
