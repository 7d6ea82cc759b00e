import KeywordCensus.Proofs.Path.Child
import KeywordCensus.Remote.Url

/-!
# The spellings of a repository

A repository is spelled with a scheme and a host, with an account at a host, as a file url, or as a
path (`RepositoryName.Form`); in the path stand the owner and the name, first or last
(`RepositoryName.Shows`), with any number of slashes between segments. All these spellings are read as
the same owner and name, and those with fewer than two segments are refused
(`RepositoryName.ofUrl_of_form`).
-/

namespace KeywordCensus

namespace Text

variable {sep c : Char} {mark before rest : List Char}

/-- A text is cut at the first separator. -/
theorem cutOnce_append (rest : List Char) (h : sep ∉ before) :
    cutOnce sep (before ++ sep :: rest) = some (before, rest) := by
  induction before with
  | nil => simp [cutOnce]
  | cons d before ih =>
    rw [List.mem_cons, not_or] at h
    simp [cutOnce, Ne.symm h.1, ih h.2]

theorem cutOnce_of_not_mem (h : sep ∉ rest) : cutOnce sep rest = none := by
  induction rest with
  | nil => rfl
  | cons d rest ih =>
    rw [List.mem_cons, not_or] at h
    simp [cutOnce, Ne.symm h.1, ih h.2]

/-- A text is not cut before the first character of the mark. -/
theorem cutAt_append (rest : List Char) (h : c ∉ before) :
    cutAt (c :: mark) (before ++ rest) =
      (cutAt (c :: mark) rest).map fun p => (before ++ p.1, p.2) := by
  induction before with
  | nil => simp
  | cons d before ih =>
    rw [List.mem_cons, not_or] at h
    have hprefix : (c :: mark).isPrefixOf (d :: (before ++ rest)) = false := by
      simp [List.isPrefixOf, h.1]
    rw [List.cons_append, cutAt, hprefix, if_neg Bool.false_ne_true, ih h.2, Option.map_map]
    rfl

theorem cutAt_mark (mark rest : List Char) :
    cutAt (c :: mark) (c :: (mark ++ rest)) = some ([], rest) := by
  have hprefix : (c :: mark).isPrefixOf (c :: (mark ++ rest)) = true :=
    List.isPrefixOf_iff_prefix.mpr (List.prefix_append (c :: mark) rest)
  rw [cutAt, hprefix, if_pos rfl, ← List.cons_append, List.drop_left]

theorem cutAt_of_not_mem (h : c ∉ rest) : cutAt (c :: mark) rest = none := by
  have hend : cutAt (c :: mark) (rest ++ []) = none := cutAt_append [] h
  rwa [List.append_nil] at hend

/-- A text that begins like another one is cut at the same place. -/
theorem afterStart?_of_ne {start : List Char} (hstart : c ∉ start) (hbefore : c ∉ before)
    (h : before ≠ start) : afterStart? (start ++ c :: mark) (before ++ c :: rest) = none := by
  rw [afterStart?, if_neg]
  intro hprefix
  obtain ⟨tail, htail⟩ := List.isPrefixOf_iff_prefix.mp hprefix
  rw [List.append_assoc, List.cons_append] at htail
  have hcut := cutOnce_append rest hbefore
  rw [← htail, cutOnce_append _ hstart] at hcut
  exact h (Prod.mk.inj (Option.some.inj hcut)).1.symm

theorem afterStart?_append (start rest : List Char) :
    afterStart? start (start ++ rest) = some rest := by
  rw [afterStart?, if_pos (List.isPrefixOf_iff_prefix.mpr (List.prefix_append start rest)),
    List.drop_left]

end Text

namespace RepositoryName

variable {a b : List Char} {url path owner name last : String} {hasHost : Bool}

/-! ## Segments between slashes -/

/-- Nothing but slashes. -/
def IsRun (s : String) : Prop := ∀ c ∈ s.toList, c = '/'

instance : DecidablePred IsRun := fun s => List.decidableBAll (· = '/') s.toList

/-- Nothing, or something that begins with a slash. -/
def IsRest (s : String) : Prop := s = "" ∨ s.toList.head? = some '/'

/-- Nothing, or something that ends with a slash. -/
def IsFront (s : String) : Prop := s = "" ∨ s.toList.getLast? = some '/'

/-- At least one slash, and nothing else. -/
def IsGap (s : String) : Prop := s ≠ "" ∧ IsRun s

/-- A segment of a path. -/
def IsSegment (s : String) : Prop := s ≠ "" ∧ '/' ∉ s.toList

theorem urlSegments_slash (a b : List Char) :
    urlSegments (a ++ '/' :: b) = urlSegments a ++ urlSegments b := by
  rw [urlSegments, Text.splitOn_append_sep, List.filter_append, urlSegments, urlSegments]

theorem urlSegments_cons_slash (b : List Char) : urlSegments ('/' :: b) = urlSegments b :=
  urlSegments_slash [] b

/-- A rest adds its own segments and changes none before it. -/
theorem urlSegments_rest {rest : String} (a : List Char) (h : IsRest rest) :
    urlSegments (a ++ rest.toList) = urlSegments a ++ urlSegments rest.toList := by
  rcases h with rfl | hslash
  · exact (congrArg urlSegments (List.append_nil a)).trans (List.append_nil _).symm
  · obtain ⟨tail, htail⟩ := List.head?_eq_some_iff.mp hslash
    rw [htail, urlSegments_slash, urlSegments_cons_slash]

/-- A front adds its own segments and changes none behind it. -/
theorem urlSegments_front {front : String} (b : List Char) (h : IsFront front) :
    urlSegments (front.toList ++ b) = urlSegments front.toList ++ urlSegments b := by
  rcases h with rfl | hslash
  · rfl
  · obtain ⟨before, hbefore⟩ := List.getLast?_eq_some_iff.mp hslash
    have hnone : urlSegments [] = [] := rfl
    rw [hbefore, List.append_assoc, List.singleton_append, urlSegments_slash, urlSegments_slash,
      hnone, List.append_nil]

theorem urlSegments_eq_nil_iff (cs : List Char) : urlSegments cs = [] ↔ ∀ c ∈ cs, c = '/' := by
  induction cs with
  | nil => exact ⟨fun _ => List.forall_mem_nil _, fun _ => rfl⟩
  | cons c rest ih =>
    rw [List.forall_mem_cons]
    by_cases hc : c = '/'
    · subst hc
      rw [urlSegments_cons_slash, ih]
      exact ⟨fun h => ⟨rfl, h⟩, fun h => h.2⟩
    · refine ⟨fun h => ?_, fun h => absurd h.1 hc⟩
      -- The first part holds the first character.
      rw [urlSegments, Text.splitOn, if_neg hc] at h
      split at h <;> simp at h

theorem urlSegments_run {run : String} (h : IsRun run) : urlSegments run.toList = [] :=
  (urlSegments_eq_nil_iff _).mpr h

theorem urlSegments_segment {segment : String} (h : IsSegment segment) :
    urlSegments segment.toList = [segment.toList] := by
  have hne : segment.toList ≠ [] := fun hnil => h.1 (String.toList_eq_nil_iff.mp hnil)
  rw [urlSegments, Text.splitOn_of_not_mem h.2, List.filter_cons, if_pos (decide_eq_true hne),
    List.filter_nil]

theorem IsGap.isRest {gap : String} (h : IsGap gap) (s : String) : IsRest (gap ++ s) := by
  obtain ⟨first, tail, hgap⟩ : ∃ first tail, gap.toList = first :: tail :=
    List.exists_cons_of_ne_nil fun hnil => h.1 (String.toList_eq_nil_iff.mp hnil)
  have hfirst : first = '/' := h.2 first (hgap ▸ List.mem_cons_self ..)
  refine .inr ?_
  rw [String.toList_append, hgap, hfirst]
  rfl

theorem IsRun.isRest {run : String} (h : IsRun run) : IsRest run := by
  by_cases hempty : run = ""
  · exact .inl hempty
  · have hgap := IsGap.isRest ⟨hempty, h⟩ ""
    rwa [String.append_empty] at hgap

theorem IsRun.isFront {run : String} (h : IsRun run) : IsFront run := by
  by_cases hempty : run = ""
  · exact .inl hempty
  · have hne : run.toList ≠ [] := fun hnil => hempty (String.toList_eq_nil_iff.mp hnil)
    refine .inr ?_
    rw [List.getLast?_eq_some_getLast hne, h _ (List.getLast_mem hne)]

/-- Slashes between two segments separate them. -/
theorem urlSegments_gap {segment gap : String} (rest : String) (hsegment : IsSegment segment)
    (hgap : IsGap gap) : urlSegments (segment.toList ++ (gap ++ rest).toList) =
      segment.toList :: urlSegments rest.toList := by
  rw [urlSegments_rest _ (hgap.isRest rest), urlSegments_segment hsegment, String.toList_append,
    urlSegments_front _ hgap.2.isFront, urlSegments_run hgap.2]
  rfl

/-! ## Paths -/

/-- A path in which the owner and the last word stand next to each other, in front if a host stands
before the path and at the end otherwise. -/
inductive Shows (owner last : String) : Bool → String → Prop where
  | first {run gap rest : String} (hrun : IsRun run) (hgap : IsGap gap) (hrest : IsRest rest) :
    Shows owner last true (run ++ (owner ++ (gap ++ (last ++ rest))))
  | last {front gap run : String} (hfront : IsFront front) (hgap : IsGap gap) (hrun : IsRun run) :
    Shows owner last false (front ++ (owner ++ (gap ++ (last ++ run))))

/-- A path with fewer than two segments. -/
def IsShort (path : String) : Prop :=
  ∃ run word run', path = run ++ (word ++ run') ∧ IsRun run ∧ '/' ∉ word.toList ∧ IsRun run'

theorem pick?_last (before : List (List Char)) (a b : List Char) :
    pick? (before ++ [a, b]) false = some (a, b) := by
  unfold pick?
  rw [if_neg Bool.false_ne_true, List.reverse_append]
  rfl

/-- Where a path shows an owner and a name, these are picked. -/
theorem pick?_of_shows (howner : IsSegment owner) (hlast : IsSegment last)
    (h : Shows owner last hasHost path) :
    pick? (urlSegments path.toList) hasHost = some (owner.toList, last.toList) := by
  cases h with
  | first hrun hgap hrest =>
    have hsegments := urlSegments_rest last.toList hrest
    rw [String.toList_append, urlSegments_front _ hrun.isFront, urlSegments_run hrun,
      String.toList_append, urlSegments_gap _ howner hgap, String.toList_append, hsegments,
      urlSegments_segment hlast]
    rfl
  | last hfront hgap hrun =>
    have hsegments := urlSegments_rest last.toList hrun.isRest
    rw [urlSegments_run hrun, urlSegments_segment hlast] at hsegments
    rw [String.toList_append, urlSegments_front _ hfront, String.toList_append,
      urlSegments_gap _ howner hgap, String.toList_append, hsegments]
    exact pick?_last _ _ _

/-- A short path has fewer than two segments. -/
theorem length_urlSegments_of_isShort (h : IsShort path) :
    (urlSegments path.toList).length < 2 := by
  obtain ⟨run, word, run', rfl, hrun, hword, hrun'⟩ := h
  rw [String.toList_append, urlSegments_front _ hrun.isFront, urlSegments_run hrun,
    List.nil_append, String.toList_append, urlSegments_rest _ hrun'.isRest, urlSegments_run hrun',
    List.append_nil]
  by_cases hempty : word = ""
  · rw [hempty]
    decide
  · rw [urlSegments_segment ⟨hempty, hword⟩]
    exact Nat.one_lt_two

/-- Every text is a part without slashes, and then a slash and what follows it, or nothing. -/
theorem exists_part (cs : List Char) : ∃ part rest, cs = part ++ rest ∧ '/' ∉ part ∧
    (rest = [] ∨ rest.head? = some '/') := by
  induction cs with
  | nil => exact ⟨[], [], rfl, List.not_mem_nil, .inl rfl⟩
  | cons c cs ih =>
    by_cases hc : c = '/'
    · exact ⟨[], c :: cs, rfl, List.not_mem_nil, .inr (congrArg some hc)⟩
    · obtain ⟨part, rest, rfl, hpart, hrest⟩ := ih
      exact ⟨c :: part, rest, rfl, by simp [Ne.symm hc, hpart], hrest⟩

/-- A text of fewer than two segments is one word between runs of slashes. -/
theorem exists_word (cs : List Char) (h : (urlSegments cs).length < 2) : ∃ run word run',
    cs = run ++ (word ++ run') ∧ (∀ c ∈ run, c = '/') ∧ '/' ∉ word ∧ ∀ c ∈ run', c = '/' := by
  induction cs with
  | nil => exact ⟨[], [], [], rfl, List.forall_mem_nil _, List.not_mem_nil, List.forall_mem_nil _⟩
  | cons c cs ih =>
    by_cases hc : c = '/'
    · subst hc
      rw [urlSegments_cons_slash] at h
      obtain ⟨run, word, run', rfl, hrun, hword, hrun'⟩ := ih h
      exact ⟨'/' :: run, word, run', rfl, List.forall_mem_cons.mpr ⟨rfl, hrun⟩, hword, hrun'⟩
    · obtain ⟨part, rest, rfl, hpart, hrest⟩ := exists_part cs
      refine ⟨[], c :: part, rest, rfl, List.forall_mem_nil _, by simp [Ne.symm hc, hpart], ?_⟩
      rcases hrest with rfl | hslash
      · exact List.forall_mem_nil _
      · -- The part is a segment, so that there is none after it.
        obtain ⟨tail, rfl⟩ := List.head?_eq_some_iff.mp hslash
        have hword : urlSegments (c :: part) = [c :: part] := by
          rw [urlSegments, Text.splitOn_of_not_mem (by simp [Ne.symm hc, hpart]), List.filter_cons,
            if_pos (decide_eq_true (List.cons_ne_nil c part)), List.filter_nil]
        rw [← List.cons_append, urlSegments_slash, hword, List.length_append,
          List.length_singleton] at h
        rw [← urlSegments_eq_nil_iff, urlSegments_cons_slash]
        exact List.length_eq_zero_iff.mp (by omega)

theorem isRun_ofList {cs : List Char} (h : ∀ c ∈ cs, c = '/') : IsRun (String.ofList cs) := by
  rw [IsRun, String.toList_ofList]
  exact h

/-- A path with fewer than two segments is one word or none among slashes. -/
theorem isShort_iff (path : String) : IsShort path ↔ (urlSegments path.toList).length < 2 := by
  refine ⟨length_urlSegments_of_isShort, fun hlength => ?_⟩
  obtain ⟨run, word, run', hpath, hrun, hword, hrun'⟩ := exists_word _ hlength
  refine ⟨.ofList run, .ofList word, .ofList run', ?_, isRun_ofList hrun, ?_, isRun_ofList hrun'⟩
  · rw [← String.ofList_append, ← String.ofList_append, ← hpath, String.ofList_toList]
  · rwa [String.toList_ofList]

/-- Nothing is picked exactly from fewer than two segments. -/
theorem pick?_eq_none_iff (segments : List (List Char)) (hasHost : Bool) :
    pick? segments hasHost = none ↔ segments.length < 2 := by
  cases hasHost with
  | true =>
    match segments with
    | [] | [_] => simp [pick?]
    | _ :: _ :: _ => simp [pick?]
  | false =>
    unfold pick?
    rw [if_neg Bool.false_ne_true, ← List.length_reverse]
    match segments.reverse with
    | [] | [_] => simp
    | _ :: _ :: _ => simp

/-! ## What stands before the path -/

/-- The spellings of a repository, each with its path and with whether a host stands before it. -/
inductive Form : String → String → Bool → Prop where
  /-- With a scheme other than that of files and a host. -/
  | hosted {scheme host path : String} (hscheme : ':' ∉ scheme.toList) (hfile : scheme ≠ "file")
      (hhost : '/' ∉ host.toList) (hpath : IsRest path) :
    Form (scheme ++ ("://" ++ (host ++ path))) path true
  /-- With an account at a host. -/
  | account {user host path : String} (huser : ':' ∉ user.toList ∧ '/' ∉ user.toList)
      (hhost : ':' ∉ host.toList ∧ '/' ∉ host.toList) (hpath : ':' ∉ path.toList)
      (hslashes : ¬ "//".toList <+: path.toList) :
    Form (user ++ ("@" ++ (host ++ (":" ++ path)))) path true
  /-- As the url of a directory. -/
  | file {path : String} : Form ("file://" ++ path) path false
  /-- As a path. -/
  | bare {path : String} (hpath : ':' ∉ path.toList) : Form path path false

/-- A url without a colon is a path. -/
theorem urlPath_bare {text : List Char} (h : ':' ∉ text) : urlPath text = (text, false) := by
  have hnone : Text.afterStart? "file://".toList text = none := by
    rw [Text.afterStart?, if_neg]
    intro hprefix
    exact h ((List.isPrefixOf_iff_prefix.mp hprefix).subset (by decide))
  have hmark : "://".toList = ':' :: ['/', '/'] := by decide
  rw [urlPath, hnone, hmark, Text.cutAt_of_not_mem h, Text.cutOnce_of_not_mem h]

/-- What stands before the first colon is not the scheme of files. -/
theorem afterStart?_file (rest : List Char) (hcolon : ':' ∉ a) (hfile : a ≠ "file".toList) :
    Text.afterStart? "file://".toList (a ++ ':' :: rest) = none := by
  have hstart : "file://".toList = "file".toList ++ ':' :: ['/', '/'] := by decide
  rw [hstart]
  exact Text.afterStart?_of_ne (by decide) hcolon hfile

/-- Behind a scheme and two slashes stand a host and the path. -/
theorem urlPath_hosted (rest : List Char) (hcolon : ':' ∉ a) (hfile : a ≠ "file".toList) :
    urlPath (a ++ ':' :: (['/', '/'] ++ rest)) =
      (((Text.cutOnce '/' rest).map Prod.snd).getD [], true) := by
  have hmark : "://".toList = ':' :: ['/', '/'] := by decide
  rw [urlPath, afterStart?_file _ hcolon hfile, hmark, Text.cutAt_append _ hcolon, Text.cutAt_mark]
  cases hcut : Text.cutOnce '/' rest <;> simp [hcut]

/-- Behind an account and a colon that no two slashes follow stands the path. -/
theorem urlPath_account (hcolon : ':' ∉ a) (hfile : a ≠ "file".toList) (hslash : '/' ∉ a)
    (hne : a ≠ []) (hpath : ':' ∉ b) (hslashes : ¬ "//".toList <+: b) :
    urlPath (a ++ ':' :: b) = (b, true) := by
  have hmark : "://".toList = ':' :: ['/', '/'] := by decide
  have hcut : Text.cutAt (':' :: ['/', '/']) (':' :: b) = none := by
    have hprefix : (':' :: ['/', '/']).isPrefixOf (':' :: b) = false := by
      rw [Bool.eq_false_iff]
      intro htrue
      exact hslashes (List.cons_prefix_cons.mp (List.isPrefixOf_iff_prefix.mp htrue)).2
    rw [Text.cutAt, hprefix, if_neg Bool.false_ne_true, Text.cutAt_of_not_mem hpath]
    rfl
  have hhead : (a ++ ':' :: b).head? ≠ some '/' := by
    intro hhead
    obtain ⟨first, tail, rfl⟩ := List.exists_cons_of_ne_nil hne
    rw [List.cons_append, List.head?_cons, Option.some_inj] at hhead
    exact hslash (hhead ▸ List.mem_cons_self ..)
  rw [urlPath, afterStart?_file _ hcolon hfile, hmark, Text.cutAt_append _ hcolon, hcut]
  simp only [Option.map_none, Text.cutOnce_append _ hcolon, if_neg hhead]

/-- An account and its host hold no more than both of them and what joins them. -/
theorem not_mem_account {user host : String} {c : Char} (huser : c ∉ user.toList)
    (hhost : c ∉ host.toList) (hc : c ≠ '@') : c ∉ (user ++ ("@" ++ host)).toList := by
  rw [String.toList_append, String.toList_append]
  intro hmem
  rcases List.mem_append.mp hmem with hmem | hmem
  · exact huser hmem
  rcases List.mem_append.mp hmem with hmem | hmem
  · exact hc (List.mem_singleton.mp hmem)
  · exact hhost hmem

/-- **Every form gives away its path**, up to slashes, and whether it has a host. -/
theorem urlPath_of_form (h : Form url path hasHost) :
    (urlPath url.toList).2 = hasHost ∧
      urlSegments (urlPath url.toList).1 = urlSegments path.toList := by
  cases h with
  | @hosted scheme host _ hscheme hfile hhost hpath =>
    have htext : (scheme ++ ("://" ++ (host ++ path))).toList =
        scheme.toList ++ ':' :: (['/', '/'] ++ (host.toList ++ path.toList)) := by
      simp only [String.toList_append]
      rfl
    have hother : scheme.toList ≠ "file".toList := fun heq => hfile (String.toList_inj.mp heq)
    rw [htext, urlPath_hosted _ hscheme hother]
    refine ⟨rfl, ?_⟩
    rcases hpath with rfl | hslash
    · have hnone : Text.cutOnce '/' (host.toList ++ "".toList) = none :=
        Text.cutOnce_of_not_mem ((List.append_nil host.toList).symm ▸ hhost)
      rw [hnone]
      rfl
    · obtain ⟨tail, htail⟩ := List.head?_eq_some_iff.mp hslash
      rw [htail, Text.cutOnce_append _ hhost]
      exact (urlSegments_cons_slash tail).symm
  | @account user host _ huser hhost hpath hslashes =>
    have htext : (user ++ ("@" ++ (host ++ (":" ++ path)))).toList =
        (user ++ ("@" ++ host)).toList ++ ':' :: path.toList := by
      simp only [String.toList_append, List.append_assoc]
      rfl
    have hmem : '@' ∈ (user ++ ("@" ++ host)).toList := by
      rw [String.toList_append, String.toList_append]
      exact List.mem_append_right _ (List.mem_append_left _ (List.mem_singleton_self '@'))
    have hother : (user ++ ("@" ++ host)).toList ≠ "file".toList := by
      intro heq
      rw [heq] at hmem
      exact absurd hmem (by decide)
    rw [htext, urlPath_account (not_mem_account huser.1 hhost.1 (by decide)) hother
      (not_mem_account huser.2 hhost.2 (by decide)) (List.ne_nil_of_mem hmem) hpath hslashes]
    exact ⟨rfl, rfl⟩
  | file =>
    rw [urlPath, String.toList_append, Text.afterStart?_append]
    exact ⟨rfl, rfl⟩
  | bare hpath =>
    rw [urlPath_bare hpath]
    exact ⟨rfl, rfl⟩

/-! ## The name -/

theorem dropSuffix_append (name : List Char) : dropSuffix (name ++ ".git".toList) = name := by
  have hsuffix : (".git".toList).isSuffixOf (name ++ ".git".toList) = true :=
    List.isSuffixOf_iff_suffix.mpr (List.suffix_append name _)
  rw [dropSuffix, Text.beforeEnd?, if_pos hsuffix, List.length_append, Nat.add_sub_cancel,
    List.take_left]
  rfl

theorem dropSuffix_of_not_suffix {name : List Char} (h : ¬ ".git".toList <:+ name) :
    dropSuffix name = name := by
  rw [dropSuffix, Text.beforeEnd?, if_neg fun hsuffix => h (List.isSuffixOf_iff_suffix.mp hsuffix)]
  rfl

/-- A name with or without one suffix is a segment that stands for the name. -/
theorem segment_of_name (hname : IsSegment name) (hsuffix : ¬ ".git".toList <:+ name.toList)
    (hlast : last = name ∨ last = name ++ ".git") :
    IsSegment last ∧ dropSuffix last.toList = name.toList := by
  rcases hlast with rfl | rfl
  · exact ⟨hname, dropSuffix_of_not_suffix hsuffix⟩
  · rw [String.toList_append, dropSuffix_append]
    refine ⟨⟨fun hempty => ?_, fun hslash => ?_⟩, rfl⟩
    · have hlength := congrArg String.length hempty
      rw [String.length_append] at hlength
      exact absurd hlength (Nat.succ_ne_zero _)
    · rw [String.toList_append] at hslash
      rcases List.mem_append.mp hslash with hslash | hslash
      · exact hname.2 hslash
      · exact absurd hslash (by decide)

/-- **All spellings of a repository are read as the same owner and name**, with or without one suffix;
a spelling with fewer than two segments, and no other one, is refused. -/
theorem ofUrl_of_form (h : Form url path hasHost) :
    (∀ owner name last : String, IsSegment owner → IsSegment name → ¬ ".git".toList <:+ name.toList →
      last = name ∨ last = name ++ ".git" → Shows owner last hasHost path →
        ofUrl url = .ok ⟨owner, name⟩) ∧
    (ofUrl url = .error (.invalidUrl url) ↔ IsShort path) := by
  obtain ⟨hhost, hsegments⟩ := urlPath_of_form h
  constructor
  · intro owner name last howner hname hsuffix hlast hshows
    obtain ⟨hsegment, hdrop⟩ := segment_of_name hname hsuffix hlast
    have hpick := pick?_of_shows howner hsegment hshows
    rw [ofUrl]
    simp only [hhost, hsegments, hpick, hdrop, String.ofList_toList]
  · rw [isShort_iff, ← pick?_eq_none_iff _ hasHost, ofUrl]
    simp only [hhost, hsegments]
    cases hpick : pick? (urlSegments path.toList) hasHost with
    | none => exact ⟨fun _ => rfl, fun _ => rfl⟩
    | some pair => exact ⟨fun h => (nomatch h), fun h => (nomatch h)⟩

/-- A url with a port, doubled slashes, a suffix and more segments, and an account without a name. -/
theorem ofUrl_of_form_conjure :
    ofUrl "https://github.com:443//conjure-cp///conjure.git/tree/main/" =
      .ok ⟨"conjure-cp", "conjure"⟩ ∧
    ofUrl "git@github.com:/conjure.git/" = .error (.invalidUrl "git@github.com:/conjure.git/") := by
  have hurl : Form "https://github.com:443//conjure-cp///conjure.git/tree/main/"
      "//conjure-cp///conjure.git/tree/main/" true :=
    @Form.hosted "https" "github.com:443" "//conjure-cp///conjure.git/tree/main/" (by decide)
      (by decide) (by decide) (.inr (by decide))
  have hshows : Shows "conjure-cp" "conjure.git" true "//conjure-cp///conjure.git/tree/main/" :=
    @Shows.first _ _ "//" "///" "/tree/main/" (by decide) ⟨by decide, by decide⟩ (.inr (by decide))
  have haccount : Form "git@github.com:/conjure.git/" "/conjure.git/" true :=
    @Form.account "git" "github.com" "/conjure.git/" (by decide) (by decide) (by decide) (by decide)
  have hshort : IsShort "/conjure.git/" :=
    ⟨"/", "conjure.git", "/", by decide, by decide, by decide, by decide⟩
  exact ⟨(ofUrl_of_form hurl).1 "conjure-cp" "conjure" "conjure.git" ⟨by decide, by decide⟩
    ⟨by decide, by decide⟩ (by decide) (.inr (by decide)) hshows,
    (ofUrl_of_form haccount).2.mpr hshort⟩

end RepositoryName

end KeywordCensus
