import Veryl.Metadata.Lockfile

/-!
What the resolution owes to a requirement, and what it does for one dependency: a
requirement whose hash is known gets no lock, any other gets one with a new name.
-/

namespace Veryl.Lockfile

open List Nat

variable {nameTable : List Text} {name' : Text} {walk' : Walk}

variable {lock : Lock} {name : Text} {walk : Walk} {tables : Tables} {root : Bool}

/-- A dependency with its project and the properties that are in effect for it. -/
structure Requirement where
  source : LockSource
  properties : Properties
  metadata : Metadata
  deriving DecidableEq

variable {r : Requirement}

namespace Requirement

def uuid (r : Requirement) : Uuid := uuidOf r.source r.properties

/-- What two requirements that are the same have in common. -/
def identity (r : Requirement) : Origin × Properties := (r.source.origin, r.properties)

end Requirement

def Lock.identity (lock : Lock) : Origin × Properties := (lock.source.origin, lock.properties)

/-- The lock is the lock of the requirement. -/
structure Lock.Locks (lock : Lock) (r : Requirement) : Prop where
  source : lock.source = r.source
  properties : lock.properties = r.properties

def require (projects : Projects) (metadata : Metadata) (root : Bool)
    (dep : Text × Dependency) : Except MetadataError Requirement := do
  let dependency ← resolveDependency projects metadata dep.1 dep.2 root
  let required ← projects.getMetadata dependency.source
  let properties ← effectiveProperties dependency.name required dep.2
  return ⟨dependency.source, properties, required⟩

/-- What a project requires, directly or by what it requires. -/
inductive Reachable (projects : Projects) (root : Metadata) : Requirement → Prop
  | direct {dep r} (hdep : dep ∈ root.dependencies)
      (hrequire : require projects root true dep = .ok r) : Reachable projects root r
  | dependency {s dep r} (hs : Reachable projects root s) (hdep : dep ∈ s.metadata.dependencies)
      (hrequire : require projects s.metadata false dep = .ok r) : Reachable projects root r

/-- `t` stands for `s`: a requirement of the root stands for all that are the same. -/
inductive Settles (projects : Projects) (root : Metadata) (s : Requirement) : Requirement → Prop
  | direct {dep t} (hdep : dep ∈ root.dependencies) (hrequire : require projects root true dep = .ok t)
      (hsame : t.identity = s.identity) : Settles projects root s t
  | own (hother : ∀ dep ∈ root.dependencies, ∀ q, require projects root true dep = .ok q →
      q.identity ≠ s.identity) : Settles projects root s s

/-- What is reachable when the projects of the root's requirements, with their overrides, stand
for those of all requirements that are the same. -/
inductive Followed (projects : Projects) (root : Metadata) : Requirement → Prop
  | direct {dep r} (hdep : dep ∈ root.dependencies)
      (hrequire : require projects root true dep = .ok r) : Followed projects root r
  | dependency {s t dep r} (hs : Followed projects root s) (ht : Settles projects root s t)
      (hdep : dep ∈ t.metadata.dependencies)
      (hrequire : require projects t.metadata false dep = .ok r) : Followed projects root r

/-- No override hides a requirement. -/
def Covered (projects : Projects) (root : Metadata) : Prop :=
  ∀ r, Reachable projects root r → ∃ s, Followed projects root s ∧ s.identity = r.identity

/-- Every requirement has its own lock, and a direct dependency has it by its name. -/
structure Kept (projects : Projects) (root : Metadata) (locks : List Lock) : Prop where
  names : (locks.map Lock.name).Nodup
  direct : ∀ dep ∈ root.dependencies, ∃ r, require projects root true dep = .ok r ∧
    ∃ lock ∈ locks, lock.name = dep.1 ∧ lock.identity = r.identity
  once : ∀ r, Reachable projects root r → ∃! lock, lock ∈ locks ∧ lock.identity = r.identity

/-- No two different requirements are hashed from the same text. -/
def Separate (projects : Projects) (root : Metadata) : Prop :=
  ∀ r s, Reachable projects root r → Reachable projects root s → r.uuid = s.uuid →
    r.identity = s.identity

section Sources

theorem uuidOf_congr {source source' : LockSource} (h : source.origin = source'.origin)
    (properties : Properties) : uuidOf source properties = uuidOf source' properties := by
  cases source with
  | repository repo =>
    cases source' with
    | repository repo' =>
      obtain ⟨hurl, hpath, hrevision⟩ := Origin.repository.inj h
      simp only [uuidOf, hurl, hpath, hrevision]
    | path text => exact absurd h (by simp [LockSource.origin])
  | path text =>
    cases source' with
    | repository repo' => exact absurd h (by simp [LockSource.origin])
    | path text' => rw [Origin.path.inj h]

theorem Lock.Locks.identity (h : lock.Locks r) : lock.identity = r.identity := by
  rw [Lock.identity, Requirement.identity, h.source, h.properties]

theorem Lock.Locks.uuid (h : lock.Locks r) : lock.uuid = r.uuid := by
  rw [Lock.uuid, Requirement.uuid, h.source, h.properties]

theorem Lock.uuid_of_identity (h : lock.identity = r.identity) : lock.uuid = r.uuid := by
  obtain ⟨horigin, hproperties⟩ := Prod.mk.inj h
  rw [Lock.uuid, Requirement.uuid, ← hproperties, uuidOf_congr horigin]

end Sources

section Names

theorem suffixed_injective (name : Text) : Function.Injective (suffixed name) := by
  intro i j h
  have hdigits : Nat.toDigits 10 i = Nat.toDigits 10 j :=
    (List.cons.inj (append_cancel_left h)).2
  have hi := ofDigitChars_ten_toDigits (n := i)
  rwa [hdigits, ofDigitChars_ten_toDigits, eq_comm] at hi

theorem freshName_not_mem (nameTable : List Text) (name : Text) :
    freshName nameTable name ∉ nameTable := by
  unfold freshName
  cases hfind : (List.range (nameTable.length + 1)).find?
      (fun i => suffixed name i ∉ nameTable) with
  | some suffix => simpa using find?_some hfind
  | none =>
    have htaken : (List.range (nameTable.length + 1)).map (suffixed name) ⊆ nameTable := by
      intro text htext
      obtain ⟨i, hi, rfl⟩ := mem_map.1 htext
      simpa using find?_eq_none.1 hfind i hi
    have hnodup := (nodup_range (n := nameTable.length + 1)).map (suffixed_injective name)
    have hle := (hnodup.subperm htaken).length_le
    rw [length_map, length_range] at hle
    omega

theorem lockName_fresh (h : lockName nameTable name root = .ok name') : name' ∉ nameTable := by
  unfold lockName at h
  split at h
  · cases root with
    | true => simp at h
    | false =>
      obtain rfl := Except.ok.inj h
      exact freshName_not_mem nameTable name
  · obtain rfl := Except.ok.inj h
    assumption

theorem lockName_root (h : lockName nameTable name true = .ok name') : name' = name := by
  unfold lockName at h
  split at h
  · simp at h
  · exact (Except.ok.inj h).symm

end Names

section Step

def Tables.uuids (tables : Tables) : List Uuid := tables.srcTable.map Prod.fst

variable {uuid : Uuid}

theorem mem_uuids_of_lookup
    (h : tables.srcTable.lookup uuid = some name) : uuid ∈ tables.uuids := by
  obtain ⟨before, after, hsplit, -⟩ := lookup_eq_some_iff.1 h
  rw [Tables.uuids, hsplit]
  simp

theorem not_mem_uuids_of_lookup (h : tables.srcTable.lookup uuid = none) : uuid ∉ tables.uuids := by
  intro hmem
  obtain ⟨entry, hentry, rfl⟩ := mem_map.1 hmem
  simpa using lookup_eq_none_iff.1 h entry hentry

variable {projects : Projects} {metadata : Metadata} {root : Bool}

theorem bind_ok {ε α β : Type} {x : Except ε α} {f : α → Except ε β} {b : β}
    (h : (x >>= f) = .ok b) : ∃ a, x = .ok a ∧ f a = .ok b := by
  cases x with
  | error e => cases h
  | ok a => exact ⟨a, rfl, h⟩

theorem resolveDependency_name {dep : Dependency} {dependency : LockDependency}
    (h : resolveDependency projects metadata name dep root = .ok dependency) :
    dependency.name = name := by
  cases dep with
  | version req => cases h
  | entry entry =>
    simp only [resolveDependency] at h
    split at h
    · split at h
      · cases h
      · obtain ⟨release, -, hdependency⟩ := bind_ok h
        rw [← Except.ok.inj hdependency]
    · split at h
      · obtain ⟨path, -, hdependency⟩ := bind_ok h
        rw [← Except.ok.inj hdependency]
      · cases h

theorem resolveDependency_override {dep : Dependency} {dependency : LockDependency}
    (h : resolveDependency projects metadata name dep false = .ok dependency) :
    dependency.source.overridePath = none := by
  cases dep with
  | version req => cases h
  | entry entry =>
    simp only [resolveDependency] at h
    split at h
    · split at h
      · cases h
      · obtain ⟨release, -, hdependency⟩ := bind_ok h
        rw [← Except.ok.inj hdependency]
        rfl
    · split at h
      · obtain ⟨path, -, hdependency⟩ := bind_ok h
        rw [← Except.ok.inj hdependency]
        rfl
      · cases h

variable {dep : Text × Dependency}

theorem require_override (h : require projects metadata false dep = .ok r) :
    r.source.overridePath = none := by
  obtain ⟨dependency, hdependency, h⟩ := bind_ok h
  obtain ⟨required, -, h⟩ := bind_ok h
  obtain ⟨properties, -, h⟩ := bind_ok h
  rw [← Except.ok.inj h]
  exact resolveDependency_override hdependency

theorem require_metadata (h : require projects metadata root dep = .ok r) :
    projects.getMetadata r.source = .ok r.metadata := by
  obtain ⟨dependency, -, h⟩ := bind_ok h
  obtain ⟨required, hrequired, h⟩ := bind_ok h
  obtain ⟨properties, -, h⟩ := bind_ok h
  rw [← Except.ok.inj h]
  exact hrequired

/-- What a step of the first pass does with the requirement of a dependency. -/
inductive Registers (walk : Walk) (root : Bool) (name : Text) (r : Requirement) : Walk → Prop
  | known (hroot : root = false) (huuid : r.uuid ∈ walk.tables.uuids) :
      Registers walk root name r
        { walk with tables := { walk.tables with nameTable := name :: walk.tables.nameTable } }
  | added {lock : Lock} (huuid : r.uuid ∉ walk.tables.uuids) (hname : lock.name = name)
      (hlocks : lock.Locks r) :
      Registers walk root name r {
        tables := ⟨name :: walk.tables.nameTable, (r.uuid, name) :: walk.tables.srcTable⟩
        ret := walk.ret ++ [lock]
        dependenciesMetadata := walk.dependenciesMetadata ++ [r.metadata] }

theorem addDependency_cases (h : addDependency projects metadata root walk dep = .ok walk') :
    ∃ r name, require projects metadata root dep = .ok r ∧
      lockName walk.tables.nameTable dep.1 root = .ok name ∧
      Registers walk root name r walk' := by
  obtain ⟨dependency, hdependency, h⟩ := bind_ok h
  obtain ⟨required, hrequired, h⟩ := bind_ok h
  obtain ⟨name, hname, h⟩ := bind_ok h
  obtain ⟨properties, hproperties, h⟩ := bind_ok h
  obtain ⟨dependencies, -, h⟩ := bind_ok h
  have hrequire : require projects metadata root dep =
      .ok ⟨dependency.source, properties, required⟩ := by
    simp only [require, hdependency, hrequired, hproperties, bind, Except.bind, pure, Except.pure]
  rw [resolveDependency_name hdependency] at hname
  refine ⟨_, name, hrequire, hname, ?_⟩
  simp only [Lock.uuid] at h
  cases hlookup : walk.tables.srcTable.lookup (uuidOf dependency.source properties) with
  | some other =>
    rw [hlookup] at h
    cases root with
    | true => cases h
    | false =>
      obtain rfl := Except.ok.inj h
      exact .known rfl (mem_uuids_of_lookup hlookup)
  | none =>
    rw [hlookup] at h
    obtain rfl := Except.ok.inj h
    exact .added (not_mem_uuids_of_lookup hlookup) rfl ⟨rfl, rfl⟩

end Step

section Adds

/-- What adding locks does to the tables. -/
structure Adds (tables : Tables) (locks : List Lock) (tables' : Tables) : Prop where
  names : ∀ name ∈ tables.nameTable, name ∈ tables'.nameTable
  taken : ∀ lock ∈ locks, lock.name ∈ tables'.nameTable
  fresh : ∀ lock ∈ locks, lock.name ∉ tables.nameTable
  nodup : (locks.map Lock.name).Nodup
  uuids : ∀ uuid, uuid ∈ tables'.uuids ↔ uuid ∈ tables.uuids ∨ uuid ∈ locks.map Lock.uuid
  unseen : ∀ lock ∈ locks, lock.uuid ∉ tables.uuids
  distinct : (locks.map Lock.uuid).Nodup

variable {tables tables' tables'' : Tables} {locks locks' : List Lock}

theorem Adds.refl (tables : Tables) : Adds tables [] tables where
  names _ h := h
  taken := by simp
  fresh := by simp
  nodup := nodup_nil
  uuids := by simp
  unseen := by simp
  distinct := nodup_nil

theorem Adds.mono (h : Adds tables locks tables') (huuid : uuid ∈ tables.uuids) :
    uuid ∈ tables'.uuids :=
  (h.uuids uuid).2 (.inl huuid)

theorem Adds.trans (h : Adds tables locks tables') (h' : Adds tables' locks' tables'') :
    Adds tables (locks ++ locks') tables'' where
  names name hname := h'.names name (h.names name hname)
  taken lock hlock := by
    rcases mem_append.1 hlock with hlock | hlock
    · exact h'.names _ (h.taken lock hlock)
    · exact h'.taken lock hlock
  fresh lock hlock := by
    rcases mem_append.1 hlock with hlock | hlock
    · exact h.fresh lock hlock
    · exact fun hname => h'.fresh lock hlock (h.names _ hname)
  nodup := by
    rw [map_append]
    refine h.nodup.append h'.nodup fun name hname hname' => ?_
    obtain ⟨lock, hlock, rfl⟩ := mem_map.1 hname
    obtain ⟨lock', hlock', heq⟩ := mem_map.1 hname'
    exact h'.fresh lock' hlock' (heq ▸ h.taken lock hlock)
  uuids uuid := by
    rw [h'.uuids, h.uuids, map_append, mem_append, or_assoc]
  unseen lock hlock := by
    rcases mem_append.1 hlock with hlock | hlock
    · exact h.unseen lock hlock
    · exact fun huuid => h'.unseen lock hlock (h.mono huuid)
  distinct := by
    rw [map_append]
    refine h.distinct.append h'.distinct fun uuid huuid huuid' => ?_
    obtain ⟨lock', hlock', rfl⟩ := mem_map.1 huuid'
    exact h'.unseen lock' hlock' ((h.uuids _).2 (.inr huuid))

theorem Registers.adds
    (h : Registers walk root name r walk') (hname : name ∉ walk.tables.nameTable) :
    ∃ locks mds, walk'.ret = walk.ret ++ locks ∧
      walk'.dependenciesMetadata = walk.dependenciesMetadata ++ mds ∧
      Adds walk.tables locks walk'.tables ∧ r.uuid ∈ walk'.tables.uuids ∧
      (∀ lock ∈ locks, lock.Locks r ∧ r.metadata ∈ mds) ∧
      (∀ md ∈ mds, md = r.metadata ∧ r.uuid ∉ walk.tables.uuids) ∧
      (root = true → ∃ lock ∈ locks, lock.name = name ∧ lock.Locks r) := by
  cases h with
  | known hroot huuid =>
    refine ⟨[], [], by simp, by simp, ?_, huuid, by simp, by simp, by simp [hroot]⟩
    exact { Adds.refl walk.tables with
      names := fun _ h => mem_cons_of_mem _ h
      taken := by simp
      uuids := by simp [Tables.uuids] }
  | @added lock huuid hlock hlocks =>
    refine ⟨[lock], [r.metadata], rfl, rfl, ?_, by simp [Tables.uuids],
      by simpa using hlocks, by simpa using huuid, fun _ => ⟨lock, by simp, hlock, hlocks⟩⟩
    exact {
      names := fun _ h => mem_cons_of_mem _ h
      taken := by simp [hlock]
      fresh := by simpa [hlock] using hname
      nodup := by simp
      uuids := by simp [Tables.uuids, hlocks.uuid, or_comm]
      unseen := by simpa [hlocks.uuid] using huuid
      distinct := by simp }

end Adds

section FirstPass

variable {projects : Projects} {metadata : Metadata} {root : Bool} {tables : Tables}

/-- Every dependency of the project is a requirement that has a lock. -/
def Explored (projects : Projects) (metadata : Metadata) (root : Bool) (tables : Tables) : Prop :=
  ∀ dep ∈ metadata.dependencies, ∃ r, require projects metadata root dep = .ok r ∧
    r.uuid ∈ tables.uuids

/-- The locks of some dependencies and the projects that are to be visited for them. -/
structure Registered (projects : Projects) (metadata : Metadata) (root : Bool) (tables : Tables)
    (deps : List (Text × Dependency)) (walk : Walk) : Prop where
  adds : Adds tables walk.ret walk.tables
  required : ∀ dep ∈ deps, ∃ r, require projects metadata root dep = .ok r ∧
    r.uuid ∈ walk.tables.uuids
  locks : ∀ lock ∈ walk.ret, ∃ dep ∈ deps, ∃ r, require projects metadata root dep = .ok r ∧
    lock.Locks r ∧ r.metadata ∈ walk.dependenciesMetadata
  pending : ∀ md ∈ walk.dependenciesMetadata, ∃ dep ∈ deps, ∃ r,
    require projects metadata root dep = .ok r ∧ md = r.metadata ∧ r.uuid ∉ tables.uuids
  direct : root = true → ∀ dep ∈ deps, ∃ r, require projects metadata root dep = .ok r ∧
    ∃ lock ∈ walk.ret, lock.name = dep.1 ∧ lock.Locks r

theorem registered_foldlM (deps : List (Text × Dependency))
    (h : deps.foldlM (addDependency projects metadata root) ⟨tables, [], []⟩ = .ok walk) :
    Registered projects metadata root tables deps walk := by
  induction deps using List.reverseRecOn generalizing walk with
  | nil =>
    obtain rfl := Except.ok.inj h
    exact ⟨Adds.refl tables, by simp, by simp, by simp, by simp⟩
  | append_singleton deps dep ih =>
    rw [foldlM_append] at h
    obtain ⟨walk₁, hwalk₁, h⟩ := bind_ok h
    have hbefore := ih hwalk₁
    have hstep : addDependency projects metadata root walk₁ dep = .ok walk := by
      simpa using h
    obtain ⟨r, name, hrequire, hname, hregisters⟩ := addDependency_cases hstep
    obtain ⟨locks, mds, hret, hmds, hadds, huuid, hlocks, hpending, hdirect⟩ :=
      hregisters.adds (lockName_fresh hname)
    refine ⟨?_, ?_, ?_, ?_, ?_⟩
    · rw [hret]
      exact hbefore.adds.trans hadds
    · intro dep' hdep'
      rcases mem_append.1 hdep' with hdep' | hdep'
      · obtain ⟨r', hrequire', huuid'⟩ := hbefore.required dep' hdep'
        exact ⟨r', hrequire', hadds.mono huuid'⟩
      · rw [mem_singleton.1 hdep']
        exact ⟨r, hrequire, huuid⟩
    · intro lock hlock
      rw [hret] at hlock
      rw [hmds]
      rcases mem_append.1 hlock with hlock | hlock
      · obtain ⟨dep', hdep', r', hrequire', hlock', hmd⟩ := hbefore.locks lock hlock
        exact ⟨dep', mem_append_left _ hdep', r', hrequire', hlock', mem_append_left _ hmd⟩
      · obtain ⟨hlock', hmd⟩ := hlocks lock hlock
        exact ⟨dep, by simp, r, hrequire, hlock', mem_append_right _ hmd⟩
    · intro md hmd
      rw [hmds] at hmd
      rcases mem_append.1 hmd with hmd | hmd
      · obtain ⟨dep', hdep', r', h'⟩ := hbefore.pending md hmd
        exact ⟨dep', mem_append_left _ hdep', r', h'⟩
      · obtain ⟨hmd, hunseen⟩ := hpending md hmd
        exact ⟨dep, by simp, r, hrequire, hmd, fun h => hunseen (hbefore.adds.mono h)⟩
    · intro hroot dep' hdep'
      rw [hret]
      rcases mem_append.1 hdep' with hdep' | hdep'
      · obtain ⟨r', hrequire', lock, hlock, h'⟩ := hbefore.direct hroot dep' hdep'
        exact ⟨r', hrequire', lock, mem_append_left _ hlock, h'⟩
      · rw [mem_singleton.1 hdep']
        obtain ⟨lock, hlock, hlockname, hlocks⟩ := hdirect hroot
        subst hroot
        exact ⟨r, hrequire, lock, mem_append_right _ hlock,
          hlockname.trans (lockName_root hname), hlocks⟩

end FirstPass

end Veryl.Lockfile
