import KeywordCensus.Proofs.FileTree.Growth
import KeywordCensus.Proofs.FileTree.Plain

/-!
# Trees that differ at certain places only

What happens at one place does not matter elsewhere. A tree differs from another one at certain
places (`FileTree.DiffersAt`) if around them nothing is missing and nothing is new but directories,
such as those that lead to the places. What is no directory is then the same around the places
(`DiffersAt.at?_iff`). Removing what stands at a path changes the tree at the place that the path
stands for (`DiffersAt.removeTree` and its neighbours).
-/

namespace KeywordCensus

namespace FileTree

open FileAction

variable {t t' t'' : FileTree} {places inner : Location → Prop} {p : Path}
  {place top : Location} {node : Node}

/-- Does a tree differ from another one at certain places only? Around them nothing is missing and
nothing is new but directories, and no link stands at one of them. -/
structure DiffersAt (t : FileTree) (places : Location → Prop) (t' : FileTree) : Prop where
  workDir : t'.workDir = t.workDir
  kept : ∀ place node, (∀ top, places top → ¬ top <+: place) → t.shell? place = some node →
    t'.shell? place = some node
  known : ∀ place node, (∀ top, places top → ¬ top <+: place) → t'.shell? place = some node →
    node ≠ .directory [] → t.shell? place = some node
  unlinked : ∀ top, places top → ∀ target, t'.at? top ≠ some (.link target)

theorem differsAt_refl (h : ∀ top, places top → ∀ target, t.at? top ≠ some (.link target)) :
    t.DiffersAt places t := ⟨rfl, fun _ _ _ hnode => hnode, fun _ _ _ hnode _ => hnode, h⟩

theorem DiffersAt.trans (h : t.DiffersAt places t') (h' : t'.DiffersAt places t'') :
    t.DiffersAt places t'' := by
  refine ⟨h'.workDir.trans h.workDir, fun place node hnot hnode => ?_,
    fun place node hnot hnode hne => ?_, h'.unlinked⟩
  · exact h'.kept place node hnot (h.kept place node hnot hnode)
  · exact h.known place node hnot (h'.known place node hnot hnode hne) hne

/-- **What is no directory is the same around the places.** -/
theorem DiffersAt.at?_iff (h : t.DiffersAt places t') (hnot : ∀ top, places top → ¬ top <+: place)
    (hne : node.shell ≠ .directory []) : t'.at? place = some node ↔ t.at? place = some node := by
  have hdirectory : node ≠ .directory [] := fun heq => hne (by rw [heq]; rfl)
  rw [← shell?_eq_some hne, ← shell?_eq_some hne]
  exact ⟨fun hnode => h.known place node hnot hnode hdirectory, h.kept place node hnot⟩

/-- More places may differ. -/
theorem DiffersAt.widen (h : t.DiffersAt inner t') (hsub : ∀ top, inner top → places top)
    (hunlinked : ∀ top, places top → ∀ target, t'.at? top ≠ some (.link target)) :
    t.DiffersAt places t' :=
  ⟨h.workDir, fun place node hnot => h.kept place node fun top htop => hnot top (hsub top htop),
    fun place node hnot => h.known place node fun top htop => hnot top (hsub top htop), hunlinked⟩

/-- A change at one of several places, none of which lies below it. -/
theorem DiffersAt.trans_at (h : t.DiffersAt places t') (hplace : places place)
    (hapart : ∀ top, places top → place <+: top → place = top)
    (h' : t'.DiffersAt (· = place) t'') : t.DiffersAt places t'' := by
  refine h.trans (h'.widen (fun top heq => heq ▸ hplace) fun top htop target hlink => ?_)
  by_cases hsame : top = place
  · exact h'.unlinked top hsame target hlink
  · have hnot : ∀ other, other = place → ¬ other <+: top := by
      rintro _ rfl hbelow
      exact hsame (hapart top htop hbelow).symm
    have hne : (Node.link target).shell ≠ .directory [] := Node.link_ne_directory
    exact h.unlinked top htop target ((h'.at?_iff hnot hne).mp hlink)

/-- Trees that agree around the places. -/
theorem differsAt_of_agree (hworkDir : t'.workDir = t.workDir)
    (hagree : ∀ other, (∀ top, places top → ¬ top <+: other) → t'.shell? other = t.shell? other)
    (hunlinked : ∀ top, places top → ∀ target, t'.at? top ≠ some (.link target)) :
    t.DiffersAt places t' :=
  ⟨hworkDir, fun place _ hnot hnode => (hagree place hnot).trans hnode,
    fun place _ hnot hnode _ => (hagree place hnot).symm.trans hnode, hunlinked⟩

/-- Making directories makes no difference around any places. -/
theorem GrowsTo.differsAt (h : t.GrowsTo t')
    (hunlinked : ∀ top, places top → ∀ target, t.at? top ≠ some (.link target)) :
    t.DiffersAt places t' :=
  ⟨h.extends_.workDir, fun place node _ => h.extends_.kept place node,
    fun place node _ => h.clears.known place node,
    fun top htop target hlink =>
      hunlinked top htop target (h.clears.at? hlink Node.link_ne_directory)⟩

/-- A tree without what stands at some places. -/
def cleared (t : FileTree) (tops : List Location) : FileTree := tops.foldl removeAt t

theorem cleared_workDir (t : FileTree) (tops : List Location) :
    (t.cleared tops).workDir = t.workDir := by
  induction tops generalizing t with
  | nil => rfl
  | cons top tops ih => exact ih (t.removeAt top)

/-- What is left of a cleared tree was there, and lies below none of the places. -/
theorem shell?_cleared {tops : List Location} (htops : ∀ top ∈ tops, top ≠ [])
    (h : (t.cleared tops).shell? place = some node) :
    t.shell? place = some node ∧ ∀ top ∈ tops, ¬ top <+: place := by
  induction tops generalizing t with
  | nil => exact ⟨h, List.forall_mem_nil _⟩
  | cons top tops ih =>
    obtain ⟨htop, htops⟩ := List.forall_mem_cons.mp htops
    obtain ⟨hremoved, hnot⟩ := ih htops h
    by_cases hbelow : top <+: place
    · rw [shell?_eq_none.mpr (at?_eq_none_below (at?_removeAt_self htop) hbelow)] at hremoved
      cases hremoved
    · rw [shell?_removeAt hbelow] at hremoved
      exact ⟨hremoved, List.forall_mem_cons.mpr ⟨hbelow, hnot⟩⟩

/-- What is left without the places is in every tree that differs there. -/
theorem extends_of_cleared {tops : List Location} (h : t.DiffersAt places t')
    (hplaces : ∀ top, places top → top ∈ tops) (htops : ∀ top ∈ tops, top ≠ []) :
    (t.cleared tops).Extends t' := by
  refine ⟨h.workDir.trans (cleared_workDir t tops).symm, fun place node hnode => ?_⟩
  obtain ⟨hbefore, hnot⟩ := shell?_cleared htops hnode
  exact h.kept place node (fun top htop => hnot top (hplaces top htop)) hbefore

/-- A plain path stays plain, unless a difference lies on its way. -/
theorem DiffersAt.plain (h : t.DiffersAt places t') (hplain : t.Plain p place)
    (hplace : places place) (hapart : ∀ top, places top → top <+: place → top = place) :
    t'.Plain p place := by
  refine ⟨hplain.text, hplain.names, ?_, fun names hnames target hlink => ?_⟩
  · rw [h.workDir]
    exact hplain.ends
  rw [h.workDir] at hlink
  have hway : startIn t.workDir p ++ names <+: place := by
    rw [← hplain.ends]
    exact (List.prefix_append_right_inj _).mpr hnames
  by_cases hsame : startIn t.workDir p ++ names = place
  · rw [hsame] at hlink
    exact h.unlinked place hplace target (at?_of_shell? hlink Node.link_ne_directory)
  · -- Above its own place the path meets no difference, so the link was there before.
    refine hplain.links names hnames target (h.known _ _ (fun top htop hbelow => ?_) hlink
      Node.link_ne_directory)
    have heq := hapart top htop (hbelow.trans hway)
    rw [heq] at hbelow
    exact hsame (hway.eq_of_length_le hbelow.length_le)

/-! ## Removing what stands at a path -/

/-- A tree still differs at one place only after a change there. -/
theorem DiffersAt.alter {change : Option Node → Option Node} (h : t.DiffersAt (· = top) t')
    (hchange : ∀ old, change old = none ∨ change old = some (.directory [])) :
    t.DiffersAt (· = top) (t'.alter top change) := by
  refine h.trans (differsAt_of_agree rfl (fun other hnot => shell?_alter (hnot top rfl)) ?_)
  intro other hother target hlink
  have hlink := (clearsTo_alter hchange).at? hlink Node.link_ne_directory
  exact h.unlinked other hother target hlink

theorem DiffersAt.withoutEntry (h : t.DiffersAt (· = top) t') (hstands : t'.Stands p top)
    (hleft : t'.WithoutEntry p t'') : t.DiffersAt (· = top) t'' := by
  rcases hleft with rfl | ⟨outer, name, hparent, hstep, rfl⟩
  · exact h
  · rw [hstands.entry outer name hparent hstep]
    exact h.alter fun _ => .inl rfl

theorem DiffersAt.removeEmptyDirectory (h : t.DiffersAt (· = top) t') (hstands : t'.Stands p top) :
    t.DiffersAt (· = top) (on (removeEmptyDirectory p) t').2 :=
  h.withoutEntry hstands (withoutEntry_removeEmptyDirectory p t')

theorem DiffersAt.removeFile (h : t.DiffersAt (· = top) t') (hstands : t'.Stands p top) :
    t.DiffersAt (· = top) (on (removeFile p) t').2 :=
  h.withoutEntry hstands (withoutEntry_removeFile p t')

/-- **Removing what stands at a path makes a difference at its place only.** -/
theorem DiffersAt.removeTree (h : t.DiffersAt (· = top) t')
    (hstands : ∀ t', t.DiffersAt (· = top) t' → t'.Stands p top) :
    t.DiffersAt (· = top) (on (removeTree p) t').2 := by
  rcases left_of_removeTree p t' with hsame | ⟨place, hplace, hleft⟩
  · rw [hsame]
    exact h
  rw [(hstands t' h).found _ _ hplace] at hleft
  rcases hleft with hremoved | hentry
  · rw [hremoved]
    exact h.alter fun _ => .inl rfl
  · -- The path still stands for the place once the directory there is empty.
    have hemptied : t.DiffersAt (· = top) (t'.put top (.directory [])) :=
      h.alter fun _ => .inr rfl
    exact hemptied.withoutEntry (hstands _ hemptied) hentry

end FileTree

end KeywordCensus
