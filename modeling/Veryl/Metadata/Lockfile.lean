import Mathlib

/-!
Resolution of the dependencies of a project to locks. A requirement is a project source
with properties; a lock is identified by a hash of both, and a requirement whose hash is
known gets no second lock.
-/

namespace Veryl.Lockfile

abbrev Text := List Char

inductive UrlPath where
  | url (text : Text)
  | path (text : Text)
  deriving DecidableEq

def UrlPath.toText : UrlPath → Text
  | .url text => text
  | .path text => text

inductive ProjectProperty where
  | int (value : ℤ)
  | bool (value : Bool)
  deriving DecidableEq

namespace ProjectProperty

def isCompatible : ProjectProperty → ProjectProperty → Bool
  | .int _, .int _ => true
  | .bool _, .bool _ => true
  | _, _ => false

def typeName : ProjectProperty → String
  | .int _ => "int"
  | .bool _ => "bool"

def valueString : ProjectProperty → Text
  | .int value =>
    if value < 0 then '-' :: Nat.toDigits 10 value.natAbs else Nat.toDigits 10 value.natAbs
  | .bool true => ['t', 'r', 'u', 'e']
  | .bool false => ['f', 'a', 'l', 's', 'e']

end ProjectProperty

/-- The properties of a project in the order of their names. -/
abbrev Properties := List (Text × ProjectProperty)

structure DependencyEntry where
  version : Option Text
  git : Option UrlPath
  github : Option Text
  project : Option Text
  path : Option Text
  properties : Properties
  deriving DecidableEq

inductive Dependency where
  | version (req : Text)
  | entry (entry : DependencyEntry)
  deriving DecidableEq

/-- What resolution reads of a project: its place, the defaults of its properties, and
its dependencies in the order in which they are visited. -/
structure Metadata where
  projectPath : Text
  properties : Properties
  dependencies : List (Text × Dependency)
  distinct : (dependencies.map Prod.fst).Nodup
  deriving DecidableEq

inductive MetadataError where
  | invalidDependency (name : Text) (cause : String)
  | conflict (name conflictsWith : Text)
  | nameConflict (name : Text)
  | unknownProperty (property project : Text)
  | mismatchType (name : Text) (expected actual : String)
  | other (cause : String)
  deriving DecidableEq

/-- The name that is hashed to a UUIDv5. The hash is taken to have no collision, so the
name stands for it. -/
abbrev Uuid := Text

structure LockSourceRepository where
  uuid : Uuid
  url : UrlPath
  path : Text
  project : Text
  version : Text
  revision : Text
  overridePath : Option Text
  deriving DecidableEq

inductive LockSource where
  | repository (repo : LockSourceRepository)
  | path (text : Text)
  deriving DecidableEq

def LockSource.toUrl : LockSource → UrlPath
  | .repository x => x.url
  | .path x => UrlPath.path x

structure LockDependency where
  name : Text
  source : LockSource
  deriving DecidableEq

structure Lock where
  name : Text
  source : LockSource
  properties : Properties
  dependencies : List LockDependency
  visible : Bool
  deriving DecidableEq

def genUuid (url : UrlPath) (path revision : Text) (properties : Properties) : Uuid :=
  url.toText ++ path ++ revision ++
    properties.flatMap fun property => property.1 ++ property.2.valueString

def uuidOf (source : LockSource) (properties : Properties) : Uuid :=
  match source with
  | LockSource.path x => genUuid source.toUrl x [] properties
  | LockSource.repository repo => genUuid repo.url repo.path repo.revision properties

def Lock.uuid (lock : Lock) : Uuid := uuidOf lock.source lock.properties

/-- The place of a project: an override and the names of the release are not part of
it. -/
inductive Origin where
  | repository (url : UrlPath) (path revision : Text)
  | path (text : Text)
  deriving DecidableEq

def LockSource.origin : LockSource → Origin
  | .repository repo => .repository repo.url repo.path repo.revision
  | .path x => .path x

/-- The local project that the root puts in the place of a release. -/
def LockSource.overridePath : LockSource → Option Text
  | .repository repo => repo.overridePath
  | .path _ => none

/-- A published release and the place of the project in its repository. -/
structure Release where
  version : Text
  revision : Text
  path : Text

/-- What exists outside: the projects at their sources, the releases, and the files that
relative paths lead to. -/
structure Projects where
  getMetadata : LockSource → Except MetadataError Metadata
  resolveVersion : UrlPath → Text → Text → Except MetadataError Release
  resolvePath : Text → Text → DependencyEntry → Text → Except MetadataError Text
  sameProject : ∀ source source', source.origin = source'.origin →
    source.overridePath = source'.overridePath → getMetadata source = getMetadata source'

def githubUrl (github : Text) : UrlPath := .url ("https://github.com/".toList ++ github)

def resolveDependency (projects : Projects) (metadata : Metadata) (name : Text)
    (dep : Dependency) (root : Bool) : Except MetadataError LockDependency :=
  match dep with
  | .version _ => .error (.invalidDependency name
      "version-only dependencies are not supported yet; specify `git`, `github`, or `path`")
  | .entry x => do
    let url := match x.git with
      | some git => some git
      | none => x.github.map githubUrl
    let project := x.project.getD name
    match url with
    | some url =>
      match x.version with
      | none => .error (.invalidDependency name "version is not specified")
      | some version =>
        let release ← projects.resolveVersion url project version
        .ok {
          name
          source := .repository {
            uuid := genUuid url release.path release.revision []
            url
            path := release.path
            project
            version := release.version
            revision := release.revision
            -- A path override is disabled if it is not root.
            overridePath := if root then x.path else none } }
    | none =>
      match x.path with
      | some path =>
        let path ← projects.resolvePath metadata.projectPath name x path
        .ok { name, source := .path path }
      | none => .error (.invalidDependency name "[git|github|path] are not specified")

/-- One property that a requirement sets. -/
def overrideProperty (project : Text) (properties : Properties)
    (property : Text × ProjectProperty) : Except MetadataError Properties :=
  match properties.lookup property.1 with
  | none => .error (.unknownProperty property.1 project)
  | some value =>
    if value.isCompatible property.2 then
      .ok (properties.map fun p => if p.1 = property.1 then property else p)
    else .error (.mismatchType property.1 value.typeName property.2.typeName)

/-- The defaults of the project overridden by the requirement. -/
def effectiveProperties (project : Text) (metadata : Metadata) :
    Dependency → Except MetadataError Properties
  | .version _ => .ok metadata.properties
  | .entry entry => entry.properties.foldlM (overrideProperty project) metadata.properties

structure Tables where
  nameTable : List Text
  srcTable : List (Uuid × Text)

def suffixed (name : Text) (suffix : ℕ) : Text := name ++ '_' :: Nat.toDigits 10 suffix

/-- The name with the first suffix that is free; one of the first suffixes is. -/
def freshName (nameTable : List Text) (name : Text) : Text :=
  match (List.range (nameTable.length + 1)).find? (fun i => suffixed name i ∉ nameTable) with
  | some suffix => suffixed name suffix
  | none => name

def lockName (nameTable : List Text) (name : Text) (root : Bool) : Except MetadataError Text :=
  if name ∈ nameTable then
    if root then .error (.nameConflict name) else .ok (freshName nameTable name)
  else .ok name

/-- The tables, the locks and the projects that are still to be visited. -/
structure Walk where
  tables : Tables
  ret : List Lock
  dependenciesMetadata : List Metadata

def addDependency (projects : Projects) (metadata : Metadata) (root : Bool) (walk : Walk)
    (dep : Text × Dependency) : Except MetadataError Walk := do
  let dependency ← resolveDependency projects metadata dep.1 dep.2 root
  let required ← projects.getMetadata dependency.source
  let name ← lockName walk.tables.nameTable dependency.name root
  let nameTable := name :: walk.tables.nameTable
  let properties ← effectiveProperties dependency.name required dep.2
  let dependencies ← required.dependencies.mapM fun d =>
    resolveDependency projects required d.1 d.2 root
  let lock : Lock :=
    { name, source := dependency.source, properties, dependencies, visible := root }
  match walk.tables.srcTable.lookup lock.uuid with
  | some x =>
    if root then .error (.conflict dependency.name x)
    else .ok { walk with tables := { walk.tables with nameTable } }
  | none =>
    .ok {
      tables := { nameTable, srcTable := (lock.uuid, name) :: walk.tables.srcTable }
      ret := walk.ret ++ [lock]
      dependenciesMetadata := walk.dependenciesMetadata ++ [required] }

/-- Generates the locks of the projects one after the other. -/
def genAll (gen : Metadata → Tables → Option (Except MetadataError (List Lock × Tables))) :
    List Metadata → List Lock → Tables → Option (Except MetadataError (List Lock × Tables))
  | [], ret, tables => some (.ok (ret, tables))
  | metadata :: rest, ret, tables =>
    match gen metadata tables with
    | some (.ok (locks, tables)) => genAll gen rest (ret ++ locks) tables
    | stopped => stopped

/-- The locks of a project, breadth first because the root has priority for its names.
`none` when the turns do not suffice. -/
def genLocks (projects : Projects) : ℕ → Metadata → Tables → Bool →
    Option (Except MetadataError (List Lock × Tables))
  | 0, _, _, _ => none
  | turns + 1, metadata, tables, root =>
    match metadata.dependencies.foldlM (addDependency projects metadata root) ⟨tables, [], []⟩ with
    | .error e => some (.error e)
    | .ok walk =>
      genAll (fun metadata tables => genLocks projects turns metadata tables false)
        walk.dependenciesMetadata walk.ret walk.tables

end Veryl.Lockfile
