import Veryl.Metadata.Requirement

/-!
Every requirement keeps its own lock if and only if no two of them are hashed from the
same text and no override of the root hides one, and over finitely many requirements the
walk ends.
-/

namespace Veryl.Lockfile

open List Prod

variable {gen : Metadata → Tables → Option (Except MetadataError (List Lock × Tables))}
  {mds : List Metadata} {turns : ℕ} {r : Requirement}

variable {projects : Projects} {metadata : Metadata} {root : Bool} {tables tables' : Tables}
  {locks : List Lock} {P : Requirement → Prop} {ret : List Lock} {known : Set Uuid}

section Runs

/-- The project of the lock was visited. -/
def Lock.Visited (projects : Projects) (tables : Tables) (lock : Lock) : Prop :=
  ∃ md, projects.getMetadata lock.source = .ok md ∧ Explored projects md false tables

/-- The property holds of the direct requirements of a project. -/
def Starts (projects : Projects) (metadata : Metadata) (root : Bool) (P : Requirement → Prop) :
    Prop :=
  ∀ dep ∈ metadata.dependencies, ∀ r, require projects metadata root dep = .ok r → P r

/-- A property of requirements that passes to what they require, but for those known before. -/
def Closed (projects : Projects) (known : Set Uuid) (P : Requirement → Prop) : Prop :=
  ∀ s, P s → s.uuid ∉ known → Starts projects s.metadata false P

/-- The locks of a walk over some projects. -/
structure Walks (projects : Projects) (P : Requirement → Prop) (tables : Tables)
    (locks : List Lock) (tables' : Tables) : Prop where
  adds : Adds tables locks tables'
  visited : ∀ lock ∈ locks, lock.Visited projects tables'
  sound : ∀ lock ∈ locks, ∃ r, P r ∧ lock.Locks r

theorem Explored.mono (h : Explored projects metadata root tables)
    (hadds : Adds tables locks tables') : Explored projects metadata root tables' := by
  intro dep hdep
  obtain ⟨r, hrequire, huuid⟩ := h dep hdep
  exact ⟨r, hrequire, hadds.mono huuid⟩

theorem Lock.Visited.mono {lock : Lock} (h : lock.Visited projects tables)
    (hadds : Adds tables locks tables') : lock.Visited projects tables' := by
  obtain ⟨md, hmd, hexplored⟩ := h
  exact ⟨md, hmd, hexplored.mono hadds⟩

theorem Walks.trans {tables'' : Tables} {locks' : List Lock}
    (h : Walks projects P tables locks tables') (h' : Walks projects P tables' locks' tables'') :
    Walks projects P tables (locks ++ locks') tables'' where
  adds := h.adds.trans h'.adds
  visited lock hlock := by
    rcases mem_append.1 hlock with hlock | hlock
    · exact (h.visited lock hlock).mono h'.adds
    · exact h'.visited lock hlock
  sound lock hlock := by
    rcases mem_append.1 hlock with hlock | hlock
    · exact h.sound lock hlock
    · exact h'.sound lock hlock

/-- What one call does, for a property of requirements that its project starts. -/
def Generates (projects : Projects) (known : Set Uuid) (P : Requirement → Prop)
    (gen : Metadata → Tables → Option (Except MetadataError (List Lock × Tables))) : Prop :=
  ∀ metadata tables locks tables', Starts projects metadata false P →
    (∀ uuid ∈ known, uuid ∈ tables.uuids) → gen metadata tables = some (.ok (locks, tables')) →
    Walks projects P tables locks tables' ∧ Explored projects metadata false tables'

theorem genAll_walks (hgen : Generates projects known P gen)
    (hstarts : ∀ md ∈ mds, Starts projects md false P)
    (hknown : ∀ uuid ∈ known, uuid ∈ tables.uuids)
    (h : genAll gen mds ret tables = some (.ok (locks, tables'))) :
    ∃ added, locks = ret ++ added ∧ Walks projects P tables added tables' ∧
      ∀ md ∈ mds, Explored projects md false tables' := by
  induction mds generalizing ret tables with
  | nil =>
    obtain ⟨rfl, rfl⟩ := mk.inj (Except.ok.inj (Option.some.inj h))
    exact ⟨[], by simp, ⟨Adds.refl tables, by simp, by simp⟩, by simp⟩
  | cons md mds ih =>
    rw [genAll] at h
    split at h
    · rename_i first tables₁ hfirst
      obtain ⟨hwalks, hexplored⟩ := hgen md tables _ _ (hstarts md (by simp)) hknown hfirst
      obtain ⟨added, rfl, hwalks', hexplored'⟩ :=
        ih (fun md' hmd' => hstarts md' (mem_cons_of_mem _ hmd'))
          (fun uuid huuid => hwalks.adds.mono (hknown uuid huuid)) h
      refine ⟨first ++ added, by simp, hwalks.trans hwalks', fun md' hmd' => ?_⟩
      rcases mem_cons.1 hmd' with rfl | hmd'
      · exact hexplored.mono hwalks'.adds
      · exact hexplored' md' hmd'
    · rename_i hstopped
      exact absurd h (hstopped locks tables')

/-- A project that was not visited before starts the property, and what is known before the
projects it requires are visited is in the tables. -/
theorem genLocks_walks (hclosed : Closed projects known P) (turns : ℕ)
    (hstarts : Starts projects metadata root P)
    (hnext : ∀ dep ∈ metadata.dependencies, ∀ r, require projects metadata root dep = .ok r →
      r.uuid ∉ tables.uuids → Starts projects r.metadata false P)
    (hknown : ∀ uuid ∈ known, uuid ∈ tables.uuids ∨ ∃ dep ∈ metadata.dependencies, ∃ r,
      require projects metadata root dep = .ok r ∧ r.uuid = uuid)
    (h : genLocks projects turns metadata tables root = some (.ok (locks, tables'))) :
    Walks projects P tables locks tables' ∧ Explored projects metadata root tables' := by
  induction turns generalizing metadata tables root locks tables' with
  | zero => cases h
  | succ turns ih =>
    rw [genLocks] at h
    split at h
    · cases h
    rename_i walk hwalk
    have hfirst := registered_foldlM metadata.dependencies hwalk
    have hgen : Generates projects known P
        (fun metadata tables => genLocks projects turns metadata tables false) :=
      fun metadata tables locks tables' hstarts hknown h => ih hstarts
        (fun dep hdep r hrequire hunseen => hclosed r (hstarts dep hdep r hrequire)
          fun hmem => hunseen (hknown _ hmem)) (fun uuid huuid => .inl (hknown uuid huuid)) h
    have hpending : ∀ md ∈ walk.dependenciesMetadata, Starts projects md false P := by
      intro md hmd
      obtain ⟨dep, hdep, r, hrequire, rfl, hunseen⟩ := hfirst.pending md hmd
      exact hnext dep hdep r hrequire hunseen
    have hentered : ∀ uuid ∈ known, uuid ∈ walk.tables.uuids := by
      intro uuid huuid
      rcases hknown uuid huuid with hold | ⟨dep, hdep, r, hrequire, rfl⟩
      · exact hfirst.adds.mono hold
      · obtain ⟨r', hrequire', hmem⟩ := hfirst.required dep hdep
        rwa [Except.ok.inj (hrequire.symm.trans hrequire')]
    obtain ⟨added, rfl, hwalks, hexplored⟩ := genAll_walks hgen hpending hentered h
    refine ⟨⟨hfirst.adds.trans hwalks.adds, ?_, ?_⟩, ?_⟩
    · intro lock hlock
      rcases mem_append.1 hlock with hlock | hlock
      · obtain ⟨dep, -, r, hrequire, hlocks, hmd⟩ := hfirst.locks lock hlock
        refine ⟨r.metadata, ?_, hexplored _ hmd⟩
        rw [hlocks.source]
        exact require_metadata hrequire
      · exact hwalks.visited lock hlock
    · intro lock hlock
      rcases mem_append.1 hlock with hlock | hlock
      · obtain ⟨dep, hdep, r, hrequire, hlocks, -⟩ := hfirst.locks lock hlock
        exact ⟨r, hstarts dep hdep r hrequire, hlocks⟩
      · exact hwalks.sound lock hlock
    · intro dep hdep
      obtain ⟨r, hrequire, huuid⟩ := hfirst.required dep hdep
      exact ⟨r, hrequire, hwalks.adds.mono huuid⟩

theorem genAll_appends (h : genAll gen mds ret tables = some (.ok (locks, tables'))) :
    ∃ added, locks = ret ++ added := by
  induction mds generalizing ret tables with
  | nil =>
    obtain ⟨rfl, -⟩ := mk.inj (Except.ok.inj (Option.some.inj h))
    exact ⟨[], by simp⟩
  | cons md mds ih =>
    rw [genAll] at h
    split at h
    · obtain ⟨added, rfl⟩ := ih h
      exact ⟨_, append_assoc ..⟩
    · rename_i hstopped
      exact absurd h (hstopped locks tables')

theorem genLocks_direct
    (h : genLocks projects turns metadata tables true = some (.ok (locks, tables'))) :
    ∀ dep ∈ metadata.dependencies, ∃ r, require projects metadata true dep = .ok r ∧
      ∃ lock ∈ locks, lock.name = dep.1 ∧ lock.Locks r := by
  cases turns with
  | zero => cases h
  | succ turns =>
    rw [genLocks] at h
    split at h
    · cases h
    · rename_i walk hwalk
      obtain ⟨added, rfl⟩ := genAll_appends h
      intro dep hdep
      obtain ⟨r, hrequire, lock, hlock, h'⟩ :=
        (registered_foldlM metadata.dependencies hwalk).direct rfl dep hdep
      exact ⟨r, hrequire, lock, mem_append_left _ hlock, h'⟩

end Runs

section Identity

theorem Reachable.metadata_eq (h : Reachable projects metadata r) :
    projects.getMetadata r.source = .ok r.metadata := by
  cases h with
  | direct _ hrequire => exact require_metadata hrequire
  | dependency _ _ hrequire => exact require_metadata hrequire

theorem Followed.reachable (h : Followed projects metadata r) : Reachable projects metadata r := by
  induction h with
  | direct hdep hrequire => exact .direct hdep hrequire
  | dependency _ ht hdep hrequire ih =>
    cases ht with
    | direct hdep' hrequire' hsame => exact .dependency (.direct hdep' hrequire') hdep hrequire
    | own _ => exact .dependency ih hdep hrequire

theorem closed_reachable (projects : Projects) (metadata : Metadata) :
    Closed projects ∅ (Reachable projects metadata) :=
  fun _ hs _ _ hdep _ hrequire => .dependency hs hdep hrequire

theorem starts_reachable (projects : Projects) (metadata : Metadata) :
    Starts projects metadata true (Reachable projects metadata) :=
  fun _ hdep _ hrequire => .direct hdep hrequire

/-- What the root requires is known when the projects it requires are visited. -/
def rootUuids (projects : Projects) (root : Metadata) : Set Uuid :=
  {uuid | ∃ dep ∈ root.dependencies, ∃ r, require projects root true dep = .ok r ∧ r.uuid = uuid}

theorem closed_followed (projects : Projects) (metadata : Metadata) :
    Closed projects (rootUuids projects metadata) (Followed projects metadata) :=
  fun s hs hunseen _ hdep _ hrequire => .dependency hs (.own fun dep hdep q hq hsame =>
    hunseen ⟨dep, hdep, q, hq, by
      obtain ⟨horigin, hproperties⟩ := Prod.mk.inj hsame
      rw [Requirement.uuid, Requirement.uuid, hproperties, uuidOf_congr horigin]⟩) hdep hrequire

theorem walks_followed
    (h : genLocks projects turns metadata ⟨[], []⟩ true = some (.ok (locks, tables))) :
    Walks projects (Followed projects metadata) ⟨[], []⟩ locks tables ∧
      Explored projects metadata true tables :=
  genLocks_walks (closed_followed projects metadata) turns
    (fun _ hdep _ hrequire => .direct hdep hrequire)
    (fun _ hdep _ hrequire _ _ hdep' _ hrequire' =>
      .dependency (.direct hdep hrequire) (.direct hdep hrequire rfl) hdep' hrequire')
    (fun _ huuid => .inr huuid) h

theorem Walks.eq_of_uuid_eq
    (hwalks : Walks projects P tables locks tables') {lock lock' : Lock} (hlock : lock ∈ locks)
    (hlock' : lock' ∈ locks)
    (h : lock.uuid = lock'.uuid) : lock = lock' :=
  inj_on_of_nodup_map hwalks.adds.distinct hlock hlock' h

section

variable (hwalks : Walks projects (Followed projects metadata) ⟨[], []⟩ locks tables)

include hwalks

theorem exists_lock (hseparate : Separate projects metadata)
    (hr : Followed projects metadata r) (huuid : r.uuid ∈ tables.uuids) :
    ∃ lock ∈ locks, lock.identity = r.identity := by
  rcases (hwalks.adds.uuids r.uuid).1 huuid with hnone | hlocks
  · simp [Tables.uuids] at hnone
  · obtain ⟨lock, hlock, heq⟩ := mem_map.1 hlocks
    obtain ⟨s, hs, hlocks⟩ := hwalks.sound lock hlock
    exact ⟨lock, hlock, hlocks.identity.trans
      (hseparate s r hs.reachable hr.reachable (hlocks.uuid.symm.trans heq))⟩

/-- The project visited for a lock is that of the requirement which stands for its own. -/
theorem visited_metadata (hdirect : ∀ dep ∈ metadata.dependencies, ∃ r,
      require projects metadata true dep = .ok r ∧ ∃ lock ∈ locks, lock.name = dep.1 ∧ lock.Locks r)
    {s t : Requirement} (hs : Followed projects metadata s) (ht : Settles projects metadata s t)
    {lock : Lock} (hlock : lock ∈ locks) (hidentity : lock.identity = s.identity) :
    projects.getMetadata lock.source = .ok t.metadata := by
  cases ht with
  | direct hdep hrequire hsame =>
    obtain ⟨r, hrequire', lock', hlock', -, hlocks⟩ := hdirect _ hdep
    obtain rfl := Except.ok.inj (hrequire.symm.trans hrequire')
    obtain rfl : lock' = lock := hwalks.eq_of_uuid_eq hlock' hlock (by
      rw [hlocks.uuid, Lock.uuid_of_identity (hidentity.trans hsame.symm)])
    rw [hlocks.source]
    exact require_metadata hrequire
  | own hother =>
    have hoverride : ∀ q, Followed projects metadata q → q.identity = s.identity →
        q.source.overridePath = none := by
      rintro q (⟨hdep, hrequire⟩ | ⟨-, -, -, hrequire⟩) hq
      · exact absurd hq (hother _ hdep q hrequire)
      · exact require_override hrequire
    obtain ⟨q, hq, hlocks⟩ := hwalks.sound lock hlock
    have hsame : q.identity = s.identity := hlocks.identity.symm.trans hidentity
    rw [hlocks.source, projects.sameProject q.source s.source (Prod.mk.inj hsame).1
      ((hoverride q hq hsame).trans (hoverride s hs rfl).symm)]
    exact hs.reachable.metadata_eq

theorem lock_of_followed (hexplored : Explored projects metadata true tables)
    (hdirect : ∀ dep ∈ metadata.dependencies, ∃ r, require projects metadata true dep = .ok r ∧
      ∃ lock ∈ locks, lock.name = dep.1 ∧ lock.Locks r)
    (hseparate : Separate projects metadata)
    (hr : Followed projects metadata r) : ∃ lock ∈ locks, lock.identity = r.identity := by
  induction hr with
  | @direct dep r hdep hrequire =>
    obtain ⟨r', hrequire', huuid⟩ := hexplored dep hdep
    obtain rfl := Except.ok.inj (hrequire.symm.trans hrequire')
    exact exists_lock hwalks hseparate (.direct hdep hrequire) huuid
  | @dependency s t dep r hs ht hdep hrequire ih =>
    obtain ⟨lock, hlock, hidentity⟩ := ih
    obtain ⟨md, hmd, hvisited⟩ := hwalks.visited lock hlock
    obtain rfl : md = t.metadata := Except.ok.inj
      (hmd.symm.trans (visited_metadata hwalks hdirect hs ht hlock hidentity))
    obtain ⟨r', hrequire', huuid⟩ := hvisited dep hdep
    obtain rfl := Except.ok.inj (hrequire.symm.trans hrequire')
    exact exists_lock hwalks hseparate (.dependency hs ht hdep hrequire) huuid

end

theorem kept_iff (h : genLocks projects turns metadata ⟨[], []⟩ true = some (.ok (locks, tables))) :
    Kept projects metadata locks ↔ Separate projects metadata ∧ Covered projects metadata := by
  obtain ⟨hwalks, hexplored⟩ := walks_followed h
  constructor
  · refine fun hkept => ⟨fun r s hr hs huuid => ?_, fun r hr => ?_⟩
    · obtain ⟨lock, ⟨hlock, hidentity⟩, -⟩ := hkept.once r hr
      obtain ⟨lock', ⟨hlock', hidentity'⟩, -⟩ := hkept.once s hs
      obtain rfl : lock = lock' := by
        refine hwalks.eq_of_uuid_eq hlock hlock' ?_
        rw [Lock.uuid_of_identity hidentity, Lock.uuid_of_identity hidentity', huuid]
      exact hidentity.symm.trans hidentity'
    · obtain ⟨lock, ⟨hlock, hidentity⟩, -⟩ := hkept.once r hr
      obtain ⟨s, hs, hlocks⟩ := hwalks.sound lock hlock
      exact ⟨s, hs, hlocks.identity.symm.trans hidentity⟩
  · rintro ⟨hseparate, hcovered⟩
    refine ⟨hwalks.adds.nodup, fun dep hdep => ?_, fun r hr => ?_⟩
    · obtain ⟨r, hrequire, lock, hlock, hname, hlocks⟩ := genLocks_direct h dep hdep
      exact ⟨r, hrequire, lock, hlock, hname, hlocks.identity⟩
    · obtain ⟨s, hs, hsame⟩ := hcovered r hr
      obtain ⟨lock, hlock, hidentity⟩ :=
        lock_of_followed hwalks hexplored (genLocks_direct h) hseparate hs
      have hidentity := hidentity.trans hsame
      refine ⟨lock, ⟨hlock, hidentity⟩, fun lock' h' => hwalks.eq_of_uuid_eq h'.1 hlock ?_⟩
      rw [Lock.uuid_of_identity h'.2, Lock.uuid_of_identity hidentity]

end Identity

section Termination

variable {P : Requirement → Prop}

theorem genAll_isSome (hgen : Generates projects ∅ P gen)
    (hstarts : ∀ md ∈ mds, Starts projects md false P)
    (hsome : ∀ md ∈ mds, ∀ tables', tables.uuids ⊆ tables'.uuids → (gen md tables').isSome) :
    (genAll gen mds ret tables).isSome := by
  induction mds generalizing ret tables with
  | nil => rfl
  | cons md mds ih =>
    obtain ⟨result, hresult⟩ :=
      Option.isSome_iff_exists.1 (hsome md (by simp) tables (List.Subset.refl _))
    rw [genAll, hresult]
    cases result with
    | error e => rfl
    | ok result =>
      obtain ⟨hwalks, -⟩ := hgen md tables _ _ (hstarts md (by simp)) (by simp) hresult
      refine ih (fun md' hmd' => hstarts md' (mem_cons_of_mem _ hmd')) ?_
      intro md' hmd' tables' hsub
      exact hsome md' (mem_cons_of_mem _ hmd') tables'
        fun uuid huuid => hsub (hwalks.adds.mono huuid)

theorem genLocks_isSome {texts : Finset Uuid} (hclosed : Closed projects ∅ P)
    (htexts : ∀ r, P r → r.uuid ∈ texts)
    (hstarts : Starts projects metadata root P)
    (hturns : (texts \ tables.uuids.toFinset).card < turns) :
    (genLocks projects turns metadata tables root).isSome := by
  induction turns generalizing metadata tables root with
  | zero => exact absurd hturns (Nat.not_lt_zero _)
  | succ turns ih =>
    rw [genLocks]
    split
    · rfl
    rename_i walk hwalk
    have hfirst := registered_foldlM metadata.dependencies hwalk
    refine genAll_isSome (P := P)
      (fun md tables locks tables' hstarts _ h => genLocks_walks hclosed turns hstarts
        (fun dep hdep r hrequire _ => hclosed r (hstarts dep hdep r hrequire) (by simp))
        (by simp) h) ?_ ?_
    · intro md hmd
      obtain ⟨dep, hdep, r, hrequire, rfl, -⟩ := hfirst.pending md hmd
      exact hclosed r (hstarts dep hdep r hrequire) (by simp)
    · intro md hmd tables' hsub
      obtain ⟨dep, hdep, r, hrequire, rfl, hunseen⟩ := hfirst.pending md hmd
      have hr := hstarts dep hdep r hrequire
      obtain ⟨r', hrequire', huuid⟩ := hfirst.required dep hdep
      obtain rfl := Except.ok.inj (hrequire.symm.trans hrequire')
      refine ih (hclosed r hr (by simp)) (Nat.lt_of_lt_of_le (Finset.card_lt_card ?_)
        (Nat.le_of_lt_succ hturns))
      refine Finset.ssubset_iff_of_subset ?_ |>.2 ⟨r.uuid, ?_, ?_⟩
      · refine Finset.sdiff_subset_sdiff (Finset.Subset.refl _) fun uuid h => ?_
        rw [mem_toFinset] at h ⊢
        exact hsub (hfirst.adds.mono h)
      · simpa using ⟨htexts r hr, hunseen⟩
      · simpa using fun _ => hsub huuid

end Termination

section Examples

/-- A dependency by a path, with no properties set. -/
def pathDependency (name path : Text) : Text × Dependency :=
  (name, .entry {
    version := none, git := none, github := none, project := none, path := some path
    properties := [] })

/-- Projects that are found by their paths. -/
def pathProjects (project : Text → Option Metadata) : Projects where
  getMetadata source :=
    match source.origin with
    | .path path => ((project path).map .ok).getD (.error (.other "file not found"))
    | .repository _ _ _ => .error (.other "repository not found")
  resolveVersion _ _ _ := .error (.other "version not found")
  resolvePath _ _ _ path := .ok path
  sameProject source source' h _ := by rw [h]

def leafProject (path : Text) (properties : Properties) : Metadata :=
  ⟨path, properties, [], nodup_nil⟩

/-- A project with one dependency. -/
def oneDependency : Metadata := ⟨['r'], [], [pathDependency ['p'] ['p']], by decide⟩

/-- A released project; a path overrides it where the root requires it. -/
def released (path : Option Text) : Text × Dependency :=
  (['p'], .entry {
    version := some ['1'], git := some (.url ['u']), github := none, project := none, path
    properties := [] })

/-- The shared project with another width than its default. -/
def wide : Text × Dependency :=
  (['c'], .entry {
    version := none, git := none, github := none, project := none, path := some ['c']
    properties := [(['m'], .int 2)] })

def projectA : Metadata := ⟨['a'], [], [pathDependency ['c'] ['c'], released none], by decide⟩

/-- The shared project requires one that requires it. -/
def projectC : Metadata := ⟨['c'], [(['m'], .int 1)], [pathDependency ['a'] ['a']], by decide⟩

def releaseP : Metadata := ⟨['p'], [], [wide], by decide⟩

def localP : Metadata := ⟨['l'], [], [wide, pathDependency ['a'] ['a']], by decide⟩

def sharedRoot : Metadata :=
  ⟨['r'], [], [pathDependency ['a'] ['a'], released (some ['l'])], by decide⟩

def sharedProjects : Projects where
  getMetadata source :=
    match source.origin, source.overridePath with
    | .path path, _ =>
      if path = ['a'] then .ok projectA
      else if path = ['c'] then .ok projectC
      else .error (.other "file not found")
    | .repository _ _ _, none => .ok releaseP
    | .repository _ _ _, some _ => .ok localP
  resolveVersion _ _ _ := .ok ⟨['1'], ['f'], []⟩
  resolvePath _ _ _ path := .ok path
  sameProject source source' h h' := by rw [h, h']

def sourceP (overridePath : Option Text) : LockSource :=
  .repository ⟨['u', 'f'], .url ['u'], [], ['p'], ['1'], ['f'], overridePath⟩

def sharedRequirements : List Requirement :=
  [⟨.path ['a'], [], projectA⟩, ⟨sourceP (some ['l']), [], localP⟩, ⟨sourceP none, [], releaseP⟩,
    ⟨.path ['c'], [(['m'], .int 1)], projectC⟩, ⟨.path ['c'], [(['m'], .int 2)], projectC⟩]

theorem sharedRoot_reachable (h : Reachable sharedProjects sharedRoot r) :
    r ∈ sharedRequirements := by
  have hroot : ∀ dep ∈ sharedRoot.dependencies, ∃ r ∈ sharedRequirements,
      require sharedProjects sharedRoot true dep = .ok r := by decide
  have hrest : ∀ s ∈ sharedRequirements, ∀ dep ∈ s.metadata.dependencies,
      ∃ r ∈ sharedRequirements, require sharedProjects s.metadata false dep = .ok r := by decide
  induction h with
  | direct hdep hrequire =>
    obtain ⟨r, hr, heq⟩ := hroot _ hdep
    rwa [Except.ok.inj (hrequire.symm.trans heq)]
  | dependency _ hdep hrequire ih =>
    obtain ⟨r, hr, heq⟩ := hrest _ ih _ hdep
    rwa [Except.ok.inj (hrequire.symm.trans heq)]

/-- The dependency of the root requires a project with a property and a project whose
path spells that property out. -/
def spelledOut : Text → Option Metadata := fun path =>
  if path = ['p'] then
    some ⟨['p'], [], [pathDependency ['x'] ['a'], pathDependency ['y'] ['a', 'a', 'm', '1']],
      by decide⟩
  else if path = ['a'] then some (leafProject path [(['m', '1', 'a', 'a', 'm'], .int 1)])
  else if path = ['a', 'a', 'm', '1'] then some (leafProject path [])
  else none

end Examples

end Veryl.Lockfile
