import KeywordCensus.FileTree.Edit
import KeywordCensus.Proofs.FileTree.Following

/-!
# What the operations of preparing a directory do

Before anything is written into a directory, what stands in the way is removed and the directories
that lead to it are made. Making directories only adds directories (`grows_makeDirectories`), and
removing only takes away (`clears_removeTree` and its neighbours), whether the operation succeeds
or fails on the way.
-/

namespace KeywordCensus

/-- A result that shows a value is the success with this value. -/
theorem eq_ok_of_toOption {ε α : Type} {result : Except ε α} {value : α}
    (h : result.toOption = some value) : result = .ok value := by
  cases result with
  | error e => cases h
  | ok found => rw [Option.some.inj h]

namespace FileAction

variable {ε ε' α β : Type}

/-- The result of an action on a tree and the tree that it leaves. -/
def on (action : FileAction ε α) (t : FileTree) : Except ε α × FileTree :=
  StateT.run (ExceptT.run action) t

@[simp] theorem on_pure (x : α) (t : FileTree) : on (pure x : FileAction ε α) t = (.ok x, t) := rfl

@[simp] theorem on_throw (e : ε) (t : FileTree) :
    on (throw e : FileAction ε α) t = (.error e, t) := rfl

@[simp] theorem on_get (t : FileTree) : on (get : FileAction ε FileTree) t = (.ok t, t) := rfl

@[simp] theorem on_set (t t' : FileTree) : on (set t' : FileAction ε Unit) t = (.ok (), t') := rfl

/-- Of two actions in a row the second one begins where the first one ends. -/
theorem on_bind (action : FileAction ε α) (next : α → FileAction ε β) (t : FileTree) :
    on (action >>= next) t = match on action t with
      | (.ok x, t') => on (next x) t'
      | (.error e, t') => (.error e, t') := by
  -- Error and state are two layers, run from the outer one to the inner one.
  show StateT.run (ExceptT.run (action >>= next)) t =
    match StateT.run (ExceptT.run action) t with
      | (.ok x, t') => on (next x) t'
      | (.error e, t') => (.error e, t')
  rw [ExceptT.run_bind, StateT.run_bind]
  cases StateT.run (ExceptT.run action) t with
  | mk result t' =>
    cases result with
    | ok x => rfl
    | error e => rfl

/-- Two actions in a row succeed if both do. -/
theorem on_bind_eq_ok {action : FileAction ε α} {next : α → FileAction ε β} {t t'' : FileTree}
    {y : β} : on (action >>= next) t = (.ok y, t'') ↔
      ∃ x t', on action t = (.ok x, t') ∧ on (next x) t' = (.ok y, t'') := by
  rw [on_bind]
  cases on action t with
  | mk result t' =>
    cases result with
    | ok x =>
      refine ⟨fun h => ⟨x, t', rfl, h⟩, ?_⟩
      rintro ⟨x', t₁, hsame, h⟩
      cases hsame
      exact h
    | error e => simp

/-- Two actions in a row fail if the first one does, or the second one after it. -/
theorem on_bind_eq_error {action : FileAction ε α} {next : α → FileAction ε β} {t t'' : FileTree}
    {e : ε} : on (action >>= next) t = (.error e, t'') ↔ on action t = (.error e, t'') ∨
      ∃ x t', on action t = (.ok x, t') ∧ on (next x) t' = (.error e, t'') := by
  rw [on_bind]
  cases on action t with
  | mk result t' =>
    cases result with
    | ok x =>
      refine ⟨fun h => .inr ⟨x, t', rfl, h⟩, ?_⟩
      rintro (hsame | ⟨x', t₁, hsame, h⟩)
      · cases hsame
      · cases hsame
        exact h
    | error e => simp

/-- Reading the tree first. -/
@[simp] theorem on_get_bind (next : FileTree → FileAction ε β) (t : FileTree) :
    on (get >>= next) t = on (next t) t := rfl

@[simp] theorem on_adapt (f : ε → ε') (action : FileAction ε α) (t : FileTree) :
    on (ExceptT.adapt f action : FileAction ε' α) t =
      ((on action t).1.mapError f, (on action t).2) := by
  show StateT.run (ExceptT.run (ExceptT.adapt f action)) t =
    ((StateT.run (ExceptT.run action) t).1.mapError f, (StateT.run (ExceptT.run action) t).2)
  rw [ExceptT.run_adapt, StateT.run_map]
  rfl

theorem on_adapt_eq_ok {f : ε → ε'} {action : FileAction ε α} {t t' : FileTree} {x : α} :
    on (ExceptT.adapt f action : FileAction ε' α) t = (.ok x, t') ↔ on action t = (.ok x, t') := by
  rw [on_adapt]
  cases on action t with
  | mk result t₁ =>
    cases result with
    | ok y =>
      constructor
      · rintro ⟨⟩
        rfl
      · rintro ⟨⟩
        rfl
    | error cause => exact iff_of_false (fun h => by cases h) fun h => by cases h

theorem on_adapt_eq_error {f : ε → ε'} {action : FileAction ε α} {t t' : FileTree} {e : ε'} :
    on (ExceptT.adapt f action : FileAction ε' α) t = (.error e, t') ↔
      ∃ cause, f cause = e ∧ on action t = (.error cause, t') := by
  rw [on_adapt]
  cases on action t with
  | mk result t₁ =>
    cases result with
    | ok y =>
      refine iff_of_false (fun h => by cases h) ?_
      rintro ⟨cause, -, h⟩
      cases h
    | error cause =>
      constructor
      · rintro ⟨⟩
        exact ⟨cause, rfl, rfl⟩
      · rintro ⟨cause, rfl, ⟨⟩⟩
        rfl

/-- Does an action lead from every tree to a related one, whether it succeeds or fails? -/
def Keeps (related : FileTree → FileTree → Prop) (action : FileAction ε α) : Prop :=
  ∀ t, related t (on action t).2

variable {related : FileTree → FileTree → Prop}

/-- What an action keeps relates the trees before and after it. -/
theorem Keeps.of_on {action : FileAction ε α} (h : Keeps related action) {t t' : FileTree}
    {result : Except ε α} (hon : on action t = (result, t')) : related t t' := by
  have hkept := h t
  rwa [hon] at hkept

theorem keeps_throw (hrefl : ∀ t, related t t) (e : ε) :
    Keeps related (throw e : FileAction ε α) := fun t => hrefl t

/-- Two actions in a row keep what both of them keep. -/
theorem keeps_bind {action : FileAction ε α} {next : α → FileAction ε β}
    (h : Keeps related action) (hnext : ∀ x, Keeps related (next x))
    (htrans : ∀ {t t' t''}, related t t' → related t' t'' → related t t'') :
    Keeps related (action >>= next) := by
  intro t
  have hfirst := h t
  rw [on_bind]
  cases haction : on action t with
  | mk result t' =>
    rw [haction] at hfirst
    cases result with
    | ok x => exact htrans hfirst (hnext x t')
    | error e => exact hfirst

theorem keeps_adapt (f : ε → ε') {action : FileAction ε α} (h : Keeps related action) :
    Keeps related (ExceptT.adapt f action : FileAction ε' α) := by
  intro t
  rw [on_adapt]
  exact h t

/-- What an action ends with: one property of the tree if it fails, another one if it succeeds. -/
def Ends (failed done : FileTree → Prop) (out : Except ε α × FileTree) : Prop :=
  match out with
  | (.ok _, t) => done t
  | (.error _, t) => failed t

variable {failed middle done : FileTree → Prop} {t : FileTree}

/-- Where a first action ends well, the next one goes on. -/
theorem ends_bind {action : FileAction ε α} {next : α → FileAction ε β}
    (h : Ends failed middle (on action t))
    (hnext : ∀ x t', middle t' → Ends failed done (on (next x) t')) :
    Ends failed done (on (action >>= next) t) := by
  rw [on_bind]
  cases haction : on action t with
  | mk result t' =>
    rw [haction] at h
    cases result with
    | ok x => exact hnext x t' h
    | error e => exact h

/-- An action ends in trees that are related to the first one. -/
theorem ends_of_keeps {action : FileAction ε α} (h : Keeps related action) (t : FileTree) :
    Ends (related t) (related t) (on action t) := by
  have hkept := h t
  cases haction : on action t with
  | mk result t' =>
    rw [haction] at hkept
    cases result with
    | ok x => exact hkept
    | error e => exact hkept

theorem Ends.imp {failed' done' : FileTree → Prop} {out : Except ε α × FileTree}
    (h : Ends failed done out) (hfailed : ∀ t, failed t → failed' t)
    (hdone : ∀ t, done t → done' t) : Ends failed' done' out := by
  obtain ⟨result, t⟩ := out
  cases result with
  | ok x => exact hdone t h
  | error e => exact hfailed t h

end FileAction

namespace FileTree

open FileAction

variable {t t' t'' : FileTree} {p : Path}

/-- Does a tree have what another one has, and nothing else but directories? -/
structure GrowsTo (t t' : FileTree) : Prop where
  extends_ : t.Extends t'
  clears : t.ClearsTo t'

theorem growsTo_refl (t : FileTree) : t.GrowsTo t := ⟨extends_refl t, clearsTo_refl t⟩

theorem GrowsTo.trans (h : t.GrowsTo t') (h' : t'.GrowsTo t'') : t.GrowsTo t'' :=
  ⟨h.extends_.trans h'.extends_, h.clears.trans h'.clears⟩

/-- A tree grows by an empty directory where nothing stood. -/
theorem growsTo_put_directory {place : Location} (h : t.at? place = none) :
    t.GrowsTo (t.put place (.directory [])) :=
  ⟨extends_put h _, clearsTo_put_directory t place⟩

/-! ## Making directories -/

theorem isStep_eq_false {segment : String} :
    isStep segment = false ↔ segment ≠ "." ∧ segment ≠ ".." := by
  rw [isStep, Bool.or_eq_false_iff, decide_eq_false_iff_not, decide_eq_false_iff_not]

/-- A directory is made in a directory, where nothing stands. -/
theorem makeDirectory_eq_ok (h : t.makeDirectory p = .ok t') :
    ∃ place name, t.parentPlace p = .ok (place, some name) ∧ isStep name = false ∧
      t.shell? place = some (.directory []) ∧ t.at? (place ++ [name]) = none ∧
      t' = t.put (place ++ [name]) (.directory []) := by
  -- Of all the ends of the definition only one is a success, and its tests are what is claimed.
  rw [makeDirectory] at h
  split at h
  · cases h
  · cases h
  · rename_i place name hparent
    split at h
    · cases h
    · rename_i hstep
      split at h
      · rename_i entries hplace
        split at h
        · cases h
        · rename_i hnone
          cases h
          refine ⟨place, name, hparent, Bool.eq_false_iff.mpr hstep,
            shell?_eq_directory.mpr ⟨entries, hplace⟩, ?_, rfl⟩
          rw [at?_concat, hplace]
          exact hnone
      · cases h

/-- A tree grows by a directory that is made. -/
theorem growsTo_makeDirectory (h : t.makeDirectory p = .ok t') : t.GrowsTo t' := by
  obtain ⟨place, name, -, -, -, hnone, rfl⟩ := makeDirectory_eq_ok h
  exact growsTo_put_directory hnone

/-- Finding out whether something is a directory changes nothing. -/
theorem on_unlessDirectory (p : Path) (e : IoError) (t : FileTree) :
    (on (do unless (← get).isDirectory p do throw e : FileAction IoError Unit) t).2 = t := by
  show (on (if t.isDirectory p then pure () else throw e : FileAction IoError Unit) t).2 = t
  split
  · rfl
  · rfl

/-- What making one directory keeps, at any path on the way, making many of them keeps, even where it
fails in the end. -/
theorem keeps_makeDirectoriesWith {related : FileTree → FileTree → Prop} {ways : Path → Prop}
    {make : FileTree → Path → Except IoError FileTree} (hrefl : ∀ t, related t t)
    (htrans : ∀ {t t' t''}, related t t' → related t' t'' → related t t'')
    (hup : ∀ {q parent : Path}, ways q → q.parent? = some parent → ways parent)
    (hmake : ∀ {t t' q}, ways q → make t q = .ok t' → related t t') (steps : Nat) (hp : ways p) :
    Keeps related (makeDirectoriesWith make steps p) := by
  -- The steps bound how many parents are tried; each one of them is a way again.
  induction steps generalizing p with
  | zero => exact keeps_throw hrefl _
  | succ steps ih =>
    intro t
    rw [makeDirectoriesWith]
    split
    · exact hrefl t
    rw [on_get_bind]
    split
    · rename_i t' hdone
      exact hmake hp hdone
    · split
      · exact hrefl t
      · -- The parent comes first, by induction; then the directory is tried once more.
        rename_i parent hparent
        refine keeps_bind (ih (hup hp hparent)) (fun _ t => ?_) htrans t
        rw [on_get_bind]
        cases hdone : make t p with
        | ok t' => exact hmake hp hdone
        | error e =>
          show related t _
          rw [on_unlessDirectory p e t]
          exact hrefl t
    · rename_i e _ _
      rw [on_unlessDirectory p e t]
      exact hrefl t

/-- **Making directories only adds directories**, even where it fails in the end. -/
theorem grows_makeDirectories (p : Path) : Keeps GrowsTo (makeDirectories p) :=
  have hmake : ∀ {t t' : FileTree} {q : Path}, True → t.makeDirectory q = .ok t' → t.GrowsTo t' :=
    fun _ => growsTo_makeDirectory
  keeps_makeDirectoriesWith growsTo_refl GrowsTo.trans (fun _ _ => trivial) hmake _ trivial

/-! ## Removing -/

/-- What removing the entry at a path may leave: the tree as it was, or without the entry. -/
def WithoutEntry (t : FileTree) (p : Path) (t' : FileTree) : Prop :=
  t' = t ∨ ∃ outer name, t.parentPlace p = .ok (outer, some name) ∧ isStep name = false ∧
    t' = t.removeAt (outer ++ [name])

theorem withoutEntry_removeEmptyDirectory (p : Path) (t : FileTree) :
    t.WithoutEntry p (on (removeEmptyDirectory p) t).2 := by
  rw [removeEmptyDirectory, on_get_bind]
  split
  · exact .inl rfl
  · exact .inl rfl
  rename_i outer name hparent
  split
  · exact .inl rfl
  rename_i hdot
  split
  · exact .inl rfl
  rename_i hdots
  have hstep : isStep name = false := isStep_eq_false.mpr ⟨hdot, hdots⟩
  -- Only a directory without entries goes.
  split
  · exact .inl rfl
  · exact .inr ⟨outer, name, hparent, hstep, rfl⟩
  · exact .inl rfl
  · exact .inl rfl
  · exact .inr ⟨outer, name, hparent, hstep, rfl⟩
  · exact .inl rfl
  · exact .inl rfl

theorem withoutEntry_removeFile (p : Path) (t : FileTree) :
    t.WithoutEntry p (on (removeFile p) t).2 := by
  rw [removeFile, on_get_bind]
  split
  · exact .inl rfl
  · exact .inl rfl
  rename_i outer name hparent
  split
  · exact .inl rfl
  rename_i hstep
  -- Only a file or a link goes.
  split
  · exact .inl rfl
  · exact .inl rfl
  · exact .inl rfl
  · exact .inl rfl
  · exact .inr ⟨outer, name, hparent, Bool.eq_false_iff.mpr hstep, rfl⟩

/-- A link goes in one step. A directory is emptied first and then removed under the same path. -/
theorem left_of_removeTree (p : Path) (t : FileTree) :
    (on (removeTree p) t).2 = t ∨ ∃ place, t.locate p false = .ok place ∧
      ((on (removeTree p) t).2 = t.removeAt place ∨
        (t.put place (.directory [])).WithoutEntry p (on (removeTree p) t).2) := by
  rw [removeTree, on_get_bind]
  -- Without the place nothing is done. A link goes as a whole, a file is left alone.
  split
  · exact .inl rfl
  rename_i place hplace
  split
  · exact .inl rfl
  · exact .inl rfl
  · exact .inr ⟨place, hplace, .inl rfl⟩
  split
  · -- A directory is emptied first, and then removed if its parent lets it go.
    refine .inr ⟨place, hplace, .inr ?_⟩
    rw [on_bind, on_set]
    exact withoutEntry_removeEmptyDirectory p _
  · exact .inl rfl

theorem WithoutEntry.clears (h : t.WithoutEntry p t') : t.ClearsTo t' := by
  rcases h with rfl | ⟨outer, name, -, -, rfl⟩
  · exact clearsTo_refl t'
  · exact clearsTo_removeAt t _

theorem clears_removeEmptyDirectory (p : Path) : Keeps ClearsTo (removeEmptyDirectory p) :=
  fun t => (withoutEntry_removeEmptyDirectory p t).clears

theorem clears_removeFile (p : Path) : Keeps ClearsTo (removeFile p) :=
  fun t => (withoutEntry_removeFile p t).clears

/-- **Removing a directory with everything in it only takes away**, even where it fails in the
end. -/
theorem clears_removeTree (p : Path) : Keeps ClearsTo (removeTree p) := by
  intro t
  rcases left_of_removeTree p t with hsame | ⟨place, -, hremoved | hentry⟩
  · rw [hsame]
    exact clearsTo_refl t
  · rw [hremoved]
    exact clearsTo_removeAt t place
  · exact (clearsTo_put_directory t place).trans hentry.clears

end FileTree

end KeywordCensus
