import R4R.DpkgDatabase
import R4R.FileTracer
import R4R.PackageFiles
import R4R.SymlinkResolver

/-!
# The resolvers

`DebPackageResolver`, `RPackageResolver` and `CopyFileResolver` in the order of `ResolveFileTask::run`.  The first two
take the traced files that belong to a package, under one of their names, out of the list; the last one gives every
file that is left a status and empties the list.
-/

namespace R4R

/-- `path.parent_path()`: the text up to the end of the element before the last. -/
def Path.parentPath (p : Path) : Path :=
  if p.filenames.isEmpty then p
  else
    let text := (p.native.rdropWhile (· ≠ '/')).rdropWhile (· = '/')
    if text.isEmpty && p.isAbsolute then ⟨['/']⟩ else ⟨text⟩

example : (Path.ofString "/usr/lib").parentPath = Path.ofString "/usr" ∧
    (Path.ofString "/usr/").parentPath = Path.ofString "/usr" ∧
    (Path.ofString "/usr").parentPath = Path.ofString "/" ∧ (Path.ofString "usr").parentPath = Path.ofString "" := by
  decide

/-- `TracerState`, as far as the resolvers use it. -/
structure TracerState where
  tracedFiles : List FileInfo
  tracedSymlinks : List (Path × Path)
  manifest : TraceManifest

/-- What the resolvers find on the machine: the answers of the file system, the root symlinks that the two
`SymlinkResolver`s have collected, the databases, and the iteration orders of the hash tables. -/
structure ResolveEnv where
  files : PosixFiles
  debSymlinks : SymlinkResolver
  rSymlinks : SymlinkResolver
  dpkg : DpkgDatabase
  rpkg : RpkgDatabase
  names : HashOrder Path
  packages : HashOrder RPackage

abbrev ResolveEnv.queries (e : ResolveEnv) : FileQueries := e.files.toFileQueries

abbrev Resolving := Except (WorkList.Failure String)

/-- The lambda `resolved` of the first two resolvers: an element whose package is found is erased. -/
def eraseFound {α P : Type} [DecidableEq P] (find : α → Resolving (Option P)) (resolved : List P) (a : α) :
    Resolving (List P × Bool) := do
  match ← find a with
  | none => return (resolved, false)
  | some pkg => return (Emplace.emplace id resolved pkg, true)

namespace DebPackageResolver

/-- The packages that the resolver passes over. -/
def passedOver (pkg : DebPackage) : Bool :=
  decide ("rstudio".toList <:+: pkg.name.toList) || decide ("bslib".toList <:+: pkg.name.toList)

/-- The loop over the names of a path. -/
def findPackage (e : ResolveEnv) : List Path → Resolving (Option DebPackage)
  | [] => return none
  | p :: ps =>
    match e.queries.isRegularFile p with
    | .error what => .error (.raised what)
    | .ok _ => -- a name that is no regular file is looked up too
      match e.dpkg.lookupByPath p with
      | none => findPackage e ps
      | some pkg => if passedOver pkg then findPackage e ps else return some pkg

def packageOf (e : ResolveEnv) (fuel : Nat) (path : Path) : Resolving (Option DebPackage) := do
  let names ← e.debSymlinks.resolveSymlinks e.queries fuel path
  findPackage e (e.names.iterate names)

/-- `DebPackageResolver::resolve`. -/
def resolve (e : ResolveEnv) (fuel : Nat) (s : TracerState) : Resolving TracerState := do
  let (resolved, files) ← Except.eraseIf (eraseFound fun info : FileInfo => packageOf e fuel info.path) []
    s.tracedFiles
  let (resolved, symlinks) ← Except.eraseIf (eraseFound fun entry : Path × Path => packageOf e fuel entry.1) resolved
    s.tracedSymlinks
  return { tracedFiles := files
           tracedSymlinks := symlinks
           manifest := resolved.foldl TraceManifest.insertDebPackage s.manifest }

end DebPackageResolver

namespace RPackageResolver

/-- The loop over the names of a path. -/
def findPackage (e : ResolveEnv) (names : List Path) : Option RPackage :=
  names.findSome? fun p => e.rpkg.lookupByPath e.packages p

def packageOf (e : ResolveEnv) (fuel : Nat) (path : Path) : Resolving (Option RPackage) := do
  let names ← e.rSymlinks.resolveSymlinks e.queries fuel path
  return findPackage e (e.names.iterate names)

/-- `RPackageResolver::resolve`. -/
def resolve (e : ResolveEnv) (fuel : Nat) (s : TracerState) : Resolving TracerState := do
  let (resolved, files) ← Except.eraseIf (eraseFound fun info : FileInfo => packageOf e fuel info.path) []
    s.tracedFiles
  return { s with
    tracedFiles := files
    manifest := resolved.foldl TraceManifest.insertRPackage s.manifest }

end RPackageResolver

/-- `AccessStatus`. -/
inductive AccessStatus where
  | accessible
  | doesNotExist
  | insufficientPermission
deriving DecidableEq, Repr

namespace FileQueries

/-- The body of `check_accessibility`, before its exceptions are caught. -/
def accessStatus (q : FileQueries) (p : Path) : Except String AccessStatus := do
  if !(← q.existsAt p) then return .doesNotExist
  let open_ := if ← q.isDirectory p then q.canIterate p else q.canOpen p
  return if open_ then .accessible else .insufficientPermission

/-- `check_accessibility`. -/
def checkAccessibility (q : FileQueries) (p : Path) : AccessStatus :=
  match q.accessStatus p with
  | .ok status => status
  | .error _ => .insufficientPermission

/-- `resolve_symlink`. -/
def resolveSymlink (q : FileQueries) (path : Path) : Except String (Option Path) :=
  match q.readSymlink path with
  | .error _ => return none
  | .ok target => if target.isAbsolute then return some target else some <$> q.absolute (path.parentPath / target)

end FileQueries

namespace CopyFileResolver

/-- The file is considered: it, or what it points to when it is a symlink, is a regular file. -/
def shouldConsider (q : FileQueries) (path : Path) : Except String Bool := do
  let regular ← q.isRegularFile path
  if ← q.isSymlink path then
    match ← q.resolveSymlink path with
    | some target => q.isRegularFile target
    | none => return regular
  else return regular

/-- The `try` block of the loop over the files. -/
def checkFile (q : FileQueries) (f : FileInfo) : Except String FileStatus :=
  match q.checkAccessibility f.path with
  | .accessible => do
    let consider ← shouldConsider q f.path
    return if consider then (if f.existedBefore then .copy else .result) else .ignoreDirectory
  | .doesNotExist => return .ignoreNoLongerExist
  | .insufficientPermission => return .ignoreNotAccessible

/-- The status of a file; an exception counts as a file that is not accessible. -/
def statusOf (q : FileQueries) (f : FileInfo) : FileStatus :=
  match checkFile q f with
  | .ok status => status
  | .error _ => .ignoreNotAccessible

/-- The predicate of the loop over the files, which erases every file. -/
def resolveFile (q : FileQueries) (results : List (List (List Char))) (m : TraceManifest) (f : FileInfo) :
    TraceManifest :=
  if f.path.parts ∈ results then m else { m with copyFiles := m.copyFiles.emplace f.path (statusOf q f) }

/-- The predicate of the loop over the symlinks. -/
def installed (q : FileQueries) (entry : Path × Path) : Bool :=
  orFalse (q.isSymlink entry.1) && orFalse (q.existsAt entry.2)

def resolveSymlinkEntry (q : FileQueries) (m : TraceManifest) (entry : Path × Path) : TraceManifest :=
  if installed q entry then { m with symlinks := Emplace.emplace Path.parts m.symlinks entry.1 } else m

/-- `CopyFileResolver::resolve`. -/
def resolve (q : FileQueries) (s : TracerState) : TracerState :=
  let results := (s.manifest.copyFiles.entries.filter fun e => e.2 = .result).map fun e => e.1.parts
  let m := s.tracedFiles.foldl (resolveFile q results) s.manifest
  { tracedFiles := []
    tracedSymlinks := s.tracedSymlinks.filter fun entry => !installed q entry
    manifest := s.tracedSymlinks.foldl (resolveSymlinkEntry q) m }

end CopyFileResolver

/-- The resolvers in the order of `ResolveFileTask::run`. -/
def resolveFiles (e : ResolveEnv) (fuel : Nat) (s : TracerState) : Resolving TracerState := do
  let s ← DebPackageResolver.resolve e fuel s
  let s ← RPackageResolver.resolve e fuel s
  return CopyFileResolver.resolve e.queries s

end R4R
