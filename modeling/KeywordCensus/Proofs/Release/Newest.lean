import KeywordCensus.Proofs.Release.Selection

/-!
# The newest version

The newest version is content with any parser in the cache, so what is cached for a pinned version
should do for it as well. It does wherever the directory of the version lies in the cache when links
are followed (`Release.Inside`): what is below that directory is below the cache. A walk does not enter
links, though, but for its own root. So a release whose entry in the cache is a link
(`Release.IsLinked`) is found for its own version only, and so is a parser that lies beside the cache
(`Release.newest_of_pinned`).
-/

namespace KeywordCensus

namespace FileTree

variable {t : FileTree} {root inner p : Path} {top middle names : Location}

/-- What is listed below a directory inside another one is listed below that one. -/
theorem Listed.of_inside (h : t.Listed inner p names) (htop : t.locate root true = .ok top)
    (hinner : t.locate inner true = .ok (top ++ middle)) :
    t.Listed root (root.descend (middle ++ names)) (middle ++ names) := by
  have hnamed : ∀ name ∈ middle ++ names, Path.IsName name := by
    -- Both parts of the way consist of names, so the path from the root can be spelled.
    intro name hname
    rcases List.mem_append.mp hname with hname | hname
    · exact locate_named hinner name (List.mem_append_right _ hname)
    · exact h.named name hname
  rcases h with hbelow | hhidden
  · obtain ⟨place, bytes, mode, hplace, -, hfile⟩ := hbelow.found
    cases hinner.symm.trans hplace
    rw [List.append_assoc] at hfile
    exact .inl (below_of_at? htop hnamed (List.append_ne_nil_of_right_ne_nil _ hbelow.inner) hfile)
  · obtain ⟨place, before, name, entries, hplace, rfl, hclosed, hmem⟩ := hhidden.listed
    cases hinner.symm.trans hplace
    rw [List.append_assoc] at hclosed
    exact .inr ⟨hnamed, rfl, top, middle ++ before, name, entries, htop, (List.append_assoc ..).symm,
      hclosed, hmem⟩

end FileTree

namespace Release

variable {t : FileTree} {cache binary : Path} {place : Location} {v : String}

/-- Does the directory of a version lie in the cache or at it, links followed? -/
def Inside (t : FileTree) (cache : Path) (v : String) : Prop :=
  ∃ top middle, t.locate cache true = .ok top ∧
    t.locate (directory cache v) true = .ok (top ++ middle)

/-- Is the entry of the cache for a version a link? -/
def IsLinked (t : FileTree) (cache : Path) (v : String) : Prop :=
  ∃ top target, t.locate cache true = .ok top ∧
    t.shell? (top ++ [directoryName v]) = some (.link target)

theorem directoryName_eq_up : directoryName v = ".." ↔ v = ".." :=
  (Text.toBytes_eq_iff (by decide)).trans
    (underscored_eq (List.forall_mem_cons.mpr ⟨by decide, List.forall_mem_singleton.mpr (by decide)⟩))

/-- **Only a link or a step up leads out of the cache.** -/
theorem inside_or_isLinked (hcache : cache.text ≠ "") (hup : v ≠ "..")
    (h : t.locate (directory cache v) true = .ok place) : Inside t cache v ∨ IsLinked t cache v := by
  rcases Path.isName_or_step (not_mem_directoryName v) with hname | hstay | hdots
  · obtain ⟨top, rest, htop, hlast, -⟩ := FileTree.locate_of_child hcache hname h
    rcases hlast.entry hname with rfl | ⟨target, hlink⟩
    · exact .inl ⟨top, _, htop, h⟩
    · exact .inr ⟨top, target, htop, hlink⟩
  · have htop := FileTree.locate_of_child_stay hcache hstay h
    rw [← List.append_nil place] at h
    exact .inl ⟨place, [], htop, h⟩
  · exact absurd (directoryName_eq_up.mp hdots) hup

/-- The newest version is cached if there is any parser below the cache. -/
theorem cached?_latest_ne_none_iff (hordered : t.root.Ordered) : cached? t cache latest ≠ none ↔
    ∃ other names, t.Listed cache other names ∧ names.getLast? = some binaryName := by
  have hnewest : cached? t cache latest = findBinary? t cache := if_pos rfl
  rw [hnewest]
  constructor
  · intro hsome
    obtain ⟨other, hother⟩ := Option.ne_none_iff_exists'.mp hsome
    obtain ⟨names, hlisted, hlast⟩ := listed_of_findBinary? hordered hother
    exact ⟨other, names, hlisted, hlast⟩
  · rintro ⟨other, names, hlisted, hlast⟩
    exact findBinary?_ne_none hordered hlisted hlast

/-- **What is cached for a pinned version does for the newest one if it lies in the cache**, links
followed; any parser below the cache would do. It lies there unless the cache has no path, the version
is a step up, or its entry in the cache is a link. A newest version that is cached is provided without
asking the service, and nothing is changed. -/
theorem newest_of_pinned (hordered : t.root.Ordered) (hv : v ≠ latest)
    (h : cached? t cache v = some binary) :
    (cached? t cache latest ≠ none ↔
      ∃ other names, t.Listed cache other names ∧ names.getLast? = some binaryName) ∧
    (Inside t cache v → cached? t cache latest ≠ none) ∧
    (¬ Inside t cache v → cache.text = "" ∨ v = ".." ∨ IsLinked t cache v) ∧
    ∀ (s : Service) (source : ReleaseSource), source.version = latest →
      ∀ other, cached? t cache latest = some other →
        (provide s cache source).run t = (some other, t) := by
  rw [cached?_of_ne_latest t cache hv] at h
  obtain ⟨names, hlisted, hlast⟩ := listed_of_findBinary? hordered h
  refine ⟨cached?_latest_ne_none_iff hordered, ?_, fun hout => ?_,
    fun s source hversion other hother => ?_⟩
  · rintro ⟨top, middle, htop, hinner⟩
    refine (cached?_latest_ne_none_iff hordered).mpr ⟨_, _, hlisted.of_inside htop hinner, ?_⟩
    rw [List.getLast?_append, hlast]
    rfl
  · -- The directory is there, so it leaves the cache by a step up or by a link.
    obtain ⟨place, -, hplace, -⟩ := FileTree.isDirectory_eq_true.mp hlisted.isDirectory
    by_cases hcache : cache.text = ""
    · exact .inl hcache
    by_cases hup : v = ".."
    · exact .inr (.inl hup)
    exact .inr (.inr ((inside_or_isLinked hcache hup hplace).resolve_left hout))
  · exact provide_of_cached s (hversion ▸ hother)

/-- Of two cached releases, either would do for the newest version. -/
theorem newest_pairCache :
    cached? pairCache ⟨"c"⟩ "v2.5.1" = some ⟨"c/v2.5.1/conjure"⟩ ∧
    cached? pairCache ⟨"c"⟩ latest ≠ none := by
  have hcached : cached? pairCache ⟨"c"⟩ "v2.5.1" = some ⟨"c/v2.5.1/conjure"⟩ := by decide +kernel
  obtain ⟨-, hinside, -, -⟩ := newest_of_pinned tidy_pairCache.ordered (by decide) hcached
  have htop : pairCache.locate ⟨"c"⟩ true = .ok ["c"] := eq_ok_of_toOption (by decide +kernel)
  have hinner : pairCache.locate (directory ⟨"c"⟩ "v2.5.1") true = .ok (["c"] ++ ["v2.5.1"]) :=
    eq_ok_of_toOption (by decide +kernel)
  exact ⟨hcached, hinside ⟨["c"], ["v2.5.1"], htop, hinner⟩⟩

/-- A cache whose only release is a link to a directory beside it. -/
def linkedCache : FileTree :=
  ⟨.directory [("c", .directory [("v1", .link "../store")]),
    ("store", .directory [("conjure", .file ByteArray.empty 0o755)])], [], List.forall_mem_nil _⟩

example : cached? linkedCache ⟨"c"⟩ "v1" = some ⟨"c/v1/conjure"⟩ := by decide +kernel

example : cached? linkedCache ⟨"c"⟩ latest = none := by decide +kernel

end Release

end KeywordCensus
