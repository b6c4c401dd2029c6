/-
Trees with the same directories that hold the same files at some places
(`AgreeOn`). Paths lead to these places in both or in none (`AgreeOn.resolve_iff`),
and files are made at the same places under the same paths (`AgreeOn.makes`). So
what such trees share is kept when files are written one after the other, each
under a path that makes it elsewhere (`agreeOn_of_write?`).

A program that first makes directories and then changes files leaves a later tree
(`Later`), in which more paths lead somewhere, but those to what is kept lead there
as before.
-/
import MemberAudit.Proofs.FileTree.SameBut

namespace MemberAudit.FileTree

open Node (walk_of_directories)

/-! ## Paths in trees with the same directories -/

variable {t t' tree written : FileTree} {path directory name : String} {l m : Location}
  {content : ByteArray}

/-- A path that leads to what is there does so in a tree with more directories. -/
theorem resolve_of_directories (hhome : t'.home = t.home)
    (hdirs : ∀ l, t.root.kindAt l = some true → t'.root.kindAt l = some true)
    (hthere : (t'.root.kindAt m).isSome) (h : t.resolve path = .ok m) : t'.resolve path = .ok m := by
  obtain ⟨hne, hnul, hwalk⟩ := resolve_eq_ok.mp h
  exact resolve_eq_ok.mpr
    ⟨hne, hnul, start_eq hhome path ▸ walk_of_directories hdirs hthere hwalk⟩

/-- Where a file stands that is made under a path, whether or not there is one. -/
structure Makes (tree : FileTree) (path : String) (m : Location) : Prop where
  place : ∃ l name, tree.place path (names path) = .ok (l, name) ∧ isStep name = false ∧ m = l ++ [name]

/-- The same files are made in a tree with more directories. -/
theorem Makes.of_directories (h : t.Makes path m) (hhome : t'.home = t.home)
    (hdirs : ∀ l, t.root.kindAt l = some true → t'.root.kindAt l = some true) : t'.Makes path m := by
  obtain ⟨l, name, hplace, hstep, rfl⟩ := h.place
  obtain ⟨hne, hnul, before, hnames, hwalk, hdir⟩ := place_eq_ok.mp hplace
  have hdir' := hdirs l hdir
  have hwalk' := walk_of_directories hdirs (by rw [hdir']; rfl) hwalk
  exact ⟨l, name, place_eq_ok.mpr ⟨hne, hnul, before, hnames, start_eq hhome path ▸ hwalk', hdir'⟩,
    hstep, rfl⟩

/-- A file in the directory to which its path leads is made there. -/
theorem opens_of_makes_child (hone : '/' ∉ name.toList) (h : tree.Makes (Path.child directory name) m) :
    ∃ l, tree.Opens directory l ∧ m = l ++ [name] := by
  obtain ⟨l, last, hplace, -, rfl⟩ := h.place
  obtain ⟨-, hnul, before, hnames, hwalk, hdir⟩ := place_eq_ok.mp hplace
  rw [names_child directory hone] at hnames
  obtain ⟨rfl, hlast⟩ := List.append_inj' hnames rfl
  rw [nul_mem_child_iff, not_or] at hnul
  rw [start_child tree hone] at hwalk
  exact ⟨l, ⟨hnul.1, hwalk, hdir⟩, by rw [List.singleton_inj.mp hlast]⟩

/-! ## Trees that agree -/

/-- Well-formed trees with the same directories, and with the same files where a
condition holds. -/
structure AgreeOn (places : Location → Prop) (a b : FileTree) : Prop where
  home : a.home = b.home
  left : a.root.WellFormed
  right : b.root.WellFormed
  directories : ∀ l, a.root.kindAt l = some true ↔ b.root.kindAt l = some true
  files : ∀ m, places m → a.root.fileAt m = b.root.fileAt m

namespace AgreeOn

variable {places : Location → Prop} {a b c : FileTree}

theorem refl (h : a.root.WellFormed) : AgreeOn places a a := ⟨rfl, h, h, fun _ => Iff.rfl, fun _ _ => rfl⟩

theorem trans (hab : AgreeOn places a b) (hbc : AgreeOn places b c) : AgreeOn places a c where
  home := hab.home.trans hbc.home
  left := hab.left
  right := hbc.right
  directories l := (hab.directories l).trans (hbc.directories l)
  files m hm := (hab.files m hm).trans (hbc.files m hm)

theorem mono {more : Location → Prop} (h : AgreeOn more a b) (hplaces : ∀ m, places m → more m) :
    AgreeOn places a b :=
  { h with files := fun m hm => h.files m (hplaces m hm) }

theorem of_sameBut {own : String → Bool} (h : SameBut own l a.root b.root) (hhome : a.home = b.home)
    (hplaces : ∀ m, places m → ∀ name, own name = true → m ≠ l ++ [name]) : AgreeOn places a b where
  home := hhome
  left := h.left
  right := h.right
  directories _ := h.kindAt_eq_true
  files m hm := h.fileAt_eq (hplaces m hm)

theorem makes (h : AgreeOn places a b) : a.Makes path m ↔ b.Makes path m :=
  ⟨fun ha => ha.of_directories h.home.symm fun l => (h.directories l).mp,
    fun hb => hb.of_directories h.home fun l => (h.directories l).mpr⟩

/-- Both trees lead the same paths to a file that they share. -/
theorem resolve_iff (h : AgreeOn places a b) (hm : places m) (hfile : a.root.fileAt m = some content) :
    a.resolve path = .ok m ↔ b.resolve path = .ok m := by
  have hleft := Node.isSome_kindAt_of_fileAt hfile
  have hright := Node.isSome_kindAt_of_fileAt ((h.files m hm).symm.trans hfile)
  exact ⟨resolve_of_directories h.home.symm (fun l => (h.directories l).mp) hright,
    resolve_of_directories h.home (fun l => (h.directories l).mpr) hleft⟩

/-- What is read through a path to a file that they share. -/
theorem read? (h : AgreeOn places a b) (hm : places m) (hresolve : a.resolve path = .ok m)
    (hfile : a.root.fileAt m = some content) : b.read? path = some content :=
  read?_eq_some.mpr ⟨m, (h.resolve_iff hm hfile).mp hresolve, (h.files m hm).symm.trans hfile⟩

end AgreeOn

/-- Writing a file changes nothing but the file that is made under its path. -/
theorem agreeOn_of_write? {places : Location → Prop} (hwf : tree.root.WellFormed)
    (hplaces : ∀ m, places m → ¬tree.Makes path m) (h : tree.write? path content = some written) :
    AgreeOn places tree written := by
  obtain ⟨l, name, hplace, hstep, hfree, -, rfl⟩ := write?_eq_some.mp h
  have hsame : SameBut (fun other => decide (other = name)) l tree.root
      (tree.root.modify (Node.put name (.file content)) l) :=
    SameBut.put hwf (by simp) content hfree
  refine .of_sameBut hsame rfl ?_
  rintro _ hm other hother rfl
  exact hplaces _ hm ⟨l, name, hplace, hstep, by rw [of_decide_eq_true hother]⟩

/-- A file that was written is read back under its path. -/
theorem read?_of_write? (hwf : tree.root.WellFormed) (h : tree.write? path content = some written) :
    written.read? path = some content := by
  have hagree : AgreeOn (fun _ => False) tree written := agreeOn_of_write? hwf (fun _ => False.elim) h
  obtain ⟨l, name, hplace, hstep, -, -, rfl⟩ := write?_eq_some.mp h
  obtain ⟨hne, hnul, before, hnames, hwalk, hdir⟩ := place_eq_ok.mp hplace
  have hdirs : ∀ m, tree.root.kindAt m = some true →
      (tree.root.modify (Node.put name (.file content)) l).kindAt m = some true :=
    fun m => (hagree.directories m).mp
  have hfile : (tree.root.modify (Node.put name (.file content)) l).fileAt (l ++ [name]) = some content := by
    rw [Node.fileAt, Node.get?_modify_put hdir, if_pos rfl]
    rfl
  refine read?_eq_some.mpr ⟨l ++ [name], resolve_eq_ok.mpr ⟨hne, hnul, ?_⟩, hfile⟩
  rw [hnames, Node.walk_append_eq_ok]
  exact ⟨l, walk_of_directories hdirs (by rw [hdirs l hdir]; rfl) hwalk, Node.walk_cons_eq_ok.mpr
    ⟨hdirs l hdir, _, .down hstep (Node.isSome_kindAt_of_fileAt hfile), rfl⟩⟩

/-! ## Later trees -/

/-- A tree and a later one: directories were made, and no file was changed where a
condition holds. -/
structure Later (places : Location → Prop) (before after : FileTree) : Prop where
  made : ∃ made : FileTree, Grown before.root made.root ∧ made.home = before.home ∧
    AgreeOn places made after

namespace Later

variable {places : Location → Prop} {before after : FileTree}

theorem refl (h : before.root.WellFormed) : Later places before before :=
  ⟨before, .refl _, rfl, .refl h⟩

theorem mono {more : Location → Prop} (h : Later more before after)
    (hplaces : ∀ m, places m → more m) : Later places before after := by
  obtain ⟨made, hgrown, hhome, hagree⟩ := h.made
  exact ⟨made, hgrown, hhome, hagree.mono hplaces⟩

theorem trans_agreeOn {last : FileTree} (h : Later places before after)
    (hlast : AgreeOn places after last) : Later places before last := by
  obtain ⟨made, hgrown, hhome, hagree⟩ := h.made
  exact ⟨made, hgrown, hhome, hagree.trans hlast⟩

theorem home (h : Later places before after) : after.home = before.home := by
  obtain ⟨made, -, hhome, hagree⟩ := h.made
  exact hagree.home.symm.trans hhome

theorem wellFormed (h : Later places before after) : after.root.WellFormed := by
  obtain ⟨made, -, -, hagree⟩ := h.made
  exact hagree.right

theorem directories (h : Later places before after) (hdir : before.root.kindAt l = some true) :
    after.root.kindAt l = some true := by
  obtain ⟨made, hgrown, -, hagree⟩ := h.made
  exact (hagree.directories l).mp (hgrown.kindAt l true hdir)

theorem fileAt (h : Later places before after) (hm : places m) :
    after.root.fileAt m = before.root.fileAt m := by
  obtain ⟨made, hgrown, -, hagree⟩ := h.made
  rw [← hagree.files m hm, hgrown.fileAt]

theorem opens (h : Later places before after) (hopens : before.Opens directory l) :
    after.Opens directory l := by
  have hdir := h.directories hopens.isDirectory
  exact ⟨hopens.nameable, start_eq h.home directory ▸
    walk_of_directories (fun _ => h.directories) (by rw [hdir]; rfl) hopens.walk, hdir⟩

/-- A file that is kept is read through the paths that led to it. -/
theorem read? (h : Later places before after) (hm : places m)
    (hfile : before.root.fileAt m = some content) (hresolve : before.resolve path = .ok m) : after.read? path = some content := by
  have hafter := (h.fileAt hm).trans hfile
  exact read?_eq_some.mpr ⟨m, resolve_of_directories h.home (fun _ => h.directories)
    (Node.isSome_kindAt_of_fileAt hafter) hresolve, hafter⟩

/-- What is there becomes no directory. -/
theorem hasDirectory (h : Later places before after) (hpath : before.hasPath path = true) :
    after.hasDirectory path = before.hasDirectory path := by
  obtain ⟨i, hi, hthere⟩ := hasPath_iff.mp hpath
  obtain ⟨kind, hkind⟩ := Option.isSome_iff_exists.mp hthere
  rw [Bool.eq_iff_iff]
  constructor
  · intro hafter
    obtain ⟨j, hj, hdir⟩ := hasDirectory_iff.mp hafter
    obtain ⟨made, hgrown, hhome, hagree⟩ := h.made
    have hmade := (hagree.directories j).mpr hdir
    have hj' := resolve_of_directories hagree.home (fun l => (hagree.directories l).mpr)
      (by rw [hmade]; rfl) hj
    obtain rfl := Except.ok.inj ((resolve_of_grown hgrown hhome hi).symm.trans hj')
    refine hasDirectory_iff.mpr ⟨i, hi, ?_⟩
    rw [hkind, ← hgrown.kindAt i kind hkind, hmade]
  · intro hbefore
    obtain ⟨j, hj, hdir⟩ := hasDirectory_iff.mp hbefore
    have hdir' := h.directories hdir
    exact hasDirectory_iff.mpr ⟨j, resolve_of_directories h.home (fun _ => h.directories)
      (by rw [hdir']; rfl) hj, hdir'⟩

end Later

end MemberAudit.FileTree
