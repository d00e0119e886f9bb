import ScriptBuild.Proofs.Toolchain.Course

/-!
# Builds in trees with links

Where the compiler takes nothing away (`Compiler.Lasting`), a build does not either: what a
path leads to lasts through all that it does, whether it succeeds or not (`Acts.lasts`). Where
the compiler writes nothing but its output (`Compiler.Careful`), each file that is written is
put there by one of the acts of the build (`Acts.puts_of_wrote`).
-/

namespace ScriptBuild

variable [WorkingDirectory]

open FileTree

theorem FileTree.lasts_place (hs : t.Spelled) (p : Path) (data : Data) :
    Lasts t (leaves (place p data t)) := by
  cases hrun : place p data t with
  | ok _ t' =>
    obtain ⟨k, hput⟩ := put_of_place hs hrun
    exact hput.toLasts
  | error error t' => exact (tidied_of_place_error hrun).toLasts

structure Compiler.Lasting (compiler : Compiler) : Prop where
  lasts : ∀ unit emit o t, t.Spelled → Lasts t (leaves (compiler.compile unit emit o t))

theorem Copying.lasting (root : Path) (extension : String) :
    (Copying.compiler root extension).Lasting where
  lasts unit emit o t hs := by
    dsimp only [Copying.compiler]
    cases hrun : Copying.compile unit emit t with
    | ok a t' =>
      rcases Copying.place_of_compile hrun with ⟨-, rfl⟩ | ⟨p, text, -, hplace⟩
      · exact .refl _
      · obtain ⟨k, hput⟩ := put_of_place hs hplace
        exact hput.toLasts
    | error error t' =>
      rcases Copying.place_of_compile_error hrun with rfl | ⟨p, text, fault, hplace⟩
      · exact .refl _
      · exact (tidied_of_place_error hplace).toLasts

variable {compiler : Compiler} {o : Options} {source : Source} {artifacts : List Artifact}
  {w w' : Workspace}

theorem Act.lasts (hc : compiler.Lasting) (hs : w.tree.Spelled)
    (h : Act compiler o source artifacts w w') : Lasts w.tree w'.tree := by
  cases h.change with
  | none htree => exact htree ▸ .refl _
  | compile =>
    rw [Build.tree_compile]
    exact hc.lasts _ _ _ _ hs
  | place => exact lasts_place hs _ _

theorem Acts.lasts (hc : compiler.Lasting) (hs : w.tree.Spelled)
    (h : Acts compiler o source artifacts w w') : Lasts w.tree w'.tree := by
  induction h with
  | refl => exact .refl _
  | tail _ hact ih => exact ih.trans (hact.lasts hc (ih.spelled hs))

-- ---------------------------------------------------------------------------
-- What is written
-- ---------------------------------------------------------------------------

/-- The compiler takes nothing away. The only file that it writes is the one that its
output is to go to, and where it fails it writes none. -/
structure Compiler.Careful (compiler : Compiler) : Prop extends compiler.Lasting where
  wrote : ∀ unit emit o t a t' k, t.Spelled → compiler.compile unit emit o t = .ok a t' →
    Wrote t t' k → ∃ p, emit.place? unit a = some p ∧ t'.resolve .existing p = .ok k
  failed : ∀ unit emit o t error t' k, t.Spelled →
    compiler.compile unit emit o t = .error error t' → ¬ Wrote t t' k

theorem Copying.careful (root : Path) (extension : String) :
    (Copying.compiler root extension).Careful where
  toLasting := Copying.lasting root extension
  wrote unit emit o t a t' k hs h hk := by
    rcases Copying.place_of_compile h with ⟨-, rfl⟩ | ⟨p, text, htarget, hplace⟩
    · exact absurd rfl hk.1
    · obtain ⟨j, hput⟩ := put_of_place hs hplace
      exact ⟨p, htarget, hput.wrote k hk ▸ hput.resolve⟩
  failed unit emit o t error t' k hs h := by
    rcases Copying.place_of_compile_error h with rfl | ⟨p, text, fault, hplace⟩
    · exact fun hk => hk.1 rfl
    · exact (tidied_of_place_error hplace).files k

/-- An act that puts a file at a path: a compilation, the output of which goes there, or
the placing of a text. -/
inductive Puts (compiler : Compiler) (o : Options) (source : Source) (artifacts : List Artifact)
    (w : Workspace) : Path → Workspace → Prop
  | compile : Act compiler o source artifacts w
        (leaves (Build.compile compiler o demand unit emit w)) →
      compiler.compile unit emit o w.tree = .ok a t → emit.place? unit a = some p →
      Puts compiler o source artifacts w p (leaves (Build.compile compiler o demand unit emit w))
  | place : Spot o source artifacts q → w.tree.isPresent (o.outputDir.join q) = false →
      FileTree.place (o.outputDir.join q) data w.tree = .ok () t →
      Puts compiler o source artifacts w (o.outputDir.join q) { w with tree := t }

theorem puts_of_compile (hc : compiler.Careful) (hs : w.tree.Spelled)
    (hact : Act compiler o source artifacts w
      (leaves (Build.compile compiler o demand unit emit w)))
    (hk : Wrote w.tree (leaves (Build.compile compiler o demand unit emit w)).tree k) :
    ∃ p, Puts compiler o source artifacts w p
        (leaves (Build.compile compiler o demand unit emit w)) ∧
      (leaves (Build.compile compiler o demand unit emit w)).tree.resolve .existing p = .ok k := by
  rw [Build.tree_compile] at hk ⊢
  cases hrun : compiler.compile unit emit o w.tree with
  | error error t =>
    rw [hrun] at hk
    exact absurd hk (hc.failed unit emit o w.tree error t k hs hrun)
  | ok a t =>
    rw [hrun] at hk
    obtain ⟨p, hplace, hresolve⟩ := hc.wrote unit emit o w.tree a t k hs hrun hk
    exact ⟨p, .compile hact hrun hplace, hresolve⟩

theorem Act.puts_of_wrote (hc : compiler.Careful) (hs : w.tree.Spelled)
    (h : Act compiler o source artifacts w w') (hk : Wrote w.tree w'.tree k) :
    ∃ p, Puts compiler o source artifacts w p w' ∧ w'.tree.resolve .existing p = .ok k := by
  cases h with
  | unit unit => exact puts_of_compile hc hs (.unit unit) hk
  | inside unit => exact puts_of_compile hc hs (.inside unit) hk
  | demand hstale hsource => exact puts_of_compile hc hs (.demand hstale hsource) hk
  | @place q _ data hq hnew =>
    cases hrun : FileTree.place (o.outputDir.join q) data w.tree with
    | ok _ t =>
      rw [hrun] at hk
      obtain ⟨j, hput⟩ := put_of_place hs hrun
      exact ⟨_, .place hq hnew hrun, hput.wrote k hk ▸ hput.resolve⟩
    | error error t =>
      rw [hrun] at hk
      exact absurd hk ((tidied_of_place_error hrun).files k)
  | look | remember | learn | note => exact absurd rfl hk.1

/-- Each file that is written in a run of acts is put there by one of them. -/
theorem Acts.puts_of_wrote (hc : compiler.Careful) (hs : w.tree.Spelled)
    (h : Acts compiler o source artifacts w w') (hk : Wrote w.tree w'.tree k) :
    ∃ v p v', Acts compiler o source artifacts w v ∧ Puts compiler o source artifacts v p v' ∧
      Acts compiler o source artifacts v' w' ∧ w'.tree.resolve .existing p = .ok k := by
  induction h with
  | refl => exact absurd rfl hk.1
  | @tail v v' hacts hact ih =>
    have hs' := (Acts.lasts hc.toLasting hs hacts).spelled hs
    rcases hk.on_way v.tree with hearlier | hlast
    · obtain ⟨u, p, u', hbefore, hput, hafter, hresolve⟩ := ih hearlier
      exact ⟨u, p, u', hbefore, hput, hafter.tail hact,
        (hact.lasts hc.toLasting hs').resolve hresolve⟩
    · obtain ⟨p, hput, hresolve⟩ := hact.puts_of_wrote hc hs' hlast
      exact ⟨v, p, v', hacts, hput, .refl, hresolve⟩

end ScriptBuild
