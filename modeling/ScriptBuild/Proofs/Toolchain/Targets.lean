import ScriptBuild.Proofs.Output.Writes
import ScriptBuild.Proofs.Toolchain.Course

/-!
# Where a build writes

`build_writes_inside`: but for the file that the result is sent to, a build writes files
below the output directory only, unless one of its targets strays from there: by steps
upwards in the name of a member or of the output, or by a namespace that spells an
absolute path.
-/

namespace ScriptBuild

variable [WorkingDirectory]

open FileTree

variable {compiler : Compiler} {o : Options} {source : Source} {w : Workspace} {k : Key}
  {d q : Path}

-- ---------------------------------------------------------------------------
-- Below a directory
-- ---------------------------------------------------------------------------

def FileTree.Inside (d : Path) (k : Key) : Prop := keyOf d <+: k ∧ k ≠ keyOf d

/-- The path need not stay below the directory that it is seen from. -/
def Path.Strays (q : Path) : Prop := q.isAbsolute = true ∨ ".." ∈ Text.split '/' q.text

instance (d : Path) (k : Key) : Decidable (Inside d k) := inferInstanceAs (Decidable (_ ∧ _))

instance (q : Path) : Decidable q.Strays := inferInstanceAs (Decidable (_ ∨ _))

theorem crossed_join (hq : q.isAbsolute = false) (hkey : keyOf (d.join q) = keyOf d) :
    Crossed (d.join q) := by
  by_cases hbase : base d = []
  · refine .inl ?_
    rw [hkey, ← keyFrom_base, hbase, startOf_join d hq]
    exact List.prefix_rfl
  · refine .inr ?_
    rw [hkey, way_join d hq, ← keyFrom_base]
    exact List.mem_append_left _ (keyFrom_mem_trail _ hbase)

theorem inside_join (hq : ¬ q.Strays) (hcrossed : ¬ Crossed (d.join q)) :
    Inside d (keyOf (d.join q)) := by
  obtain ⟨habsolute, hup⟩ := not_or.mp hq
  have hrelative : q.isAbsolute = false := by simpa using habsolute
  refine ⟨?_, fun hkey => hcrossed (crossed_join hrelative hkey)⟩
  rw [keyOf_join d hrelative]
  exact isPrefix_keyFrom hup

namespace Toolchain

variable {toolchain : Toolchain}

-- ---------------------------------------------------------------------------
-- Whole builds
-- ---------------------------------------------------------------------------

theorem writes_result (hc : toolchain.compiler.Obedient) (hp : w.tree.Plain) :
    Writes toolchain.compiler o source (toolchain.toPlace o source w) w
      (leaves (toolchain.result o source w)) := by
  obtain ⟨w₁, events, hacts, hlast, -⟩ := acts_result toolchain o source w
  rw [hlast]
  exact (Writes.of_acts hc hp hacts).trans (.of_tree rfl (List.prefix_append _ _))

theorem emit_wrote {destination : Option Destination} (hp : w.tree.Plain)
    (h : Wrote w.tree (leaves (Output.emit text destination w)).tree k) :
    ∃ path, destination = some (.path path) ∧ k = keyOf path := by
  match destination with
  | none => exact absurd rfl h.1
  | some .standardOutput => exact absurd rfl h.1
  | some (.path path) =>
    obtain ⟨data, hdata⟩ := leaves_emit text path w
    rw [hdata] at h
    refine ⟨path, rfl, ?_⟩
    cases hplace : place path data w.tree with
    | ok _ t =>
      rw [hplace] at h
      exact (place_ok hp hplace).eq_of_wrote h
    | error error t =>
      rw [hplace] at h
      exact absurd h ((place_error hp hplace).kept k).not_wrote

/-- Whether the build succeeds or not, what it writes is the file that the result is sent
to, or lies below the output directory, or lies where one of its targets strays to. -/
theorem build_writes_inside (hc : toolchain.compiler.Obedient) (hp : w.tree.Plain)
    (h : Wrote w.tree (leaves (toolchain.build o source w)).tree k) :
    (∃ path, o.outputTo = some (.path path) ∧ k = keyOf path) ∨ Inside o.outputDir k ∨
      ∃ q, Target toolchain.compiler o source (toolchain.toPlace o source w)
          (w.since (leaves (toolchain.build o source w))) q ∧
        q.Strays ∧ k = keyOf (o.outputDir.join q) := by
  have hresult : Writes toolchain.compiler o source (toolchain.toPlace o source w) w
    (leaves (toolchain.result o source w)) := writes_result hc hp
  -- what the last step wrote, and what was written before
  have hplace : ∀ w', leaves (toolchain.result o source w) = w' →
      Wrote w.tree w'.tree k → w'.journal <+: (leaves (toolchain.build o source w)).journal →
      Inside o.outputDir k ∨
        ∃ q, Target toolchain.compiler o source (toolchain.toPlace o source w)
            (w.since (leaves (toolchain.build o source w))) q ∧
          q.Strays ∧ k = keyOf (o.outputDir.join q) := by
    rintro w' rfl hk hjournal
    obtain ⟨q, hq, rfl, hcrossed⟩ := hresult.target k hk
    by_cases hstrays : q.Strays
    · exact .inr ⟨q, hq.mono (since_mono List.prefix_rfl hjournal), hstrays, rfl⟩
    · exact .inl (inside_join hstrays hcrossed)
  cases hrun : toolchain.result o source w with
  | error error w' =>
    have hbuild : toolchain.build o source w = .error error w' := Build.bind_error hrun
    rw [hbuild] at h hplace ⊢
    exact .inr (hplace w' (by rw [hrun]; rfl) h List.prefix_rfl)
  | ok text w' =>
    have hbuild : toolchain.build o source w = Output.emit text o.outputTo w' :=
      Build.bind_ok hrun
    rw [hbuild] at h hplace ⊢
    rw [hrun] at hresult
    rcases h.on_way w'.tree with hbefore | hlast
    · exact .inr (hplace w' (by rw [hrun]; rfl) hbefore (journal_emit ..))
    · exact .inl (emit_wrote (hresult.tree.plain hp) hlast)

end Toolchain

end ScriptBuild

namespace ScriptBuild.Toolchain

open FileTree

/-- The output is named by a path that leads upwards, which valid options may do. -/
def straying : Trial where
  o := { outputFile := some ⟨"../x.js"⟩ }
  source := .text ""
  w := sampleWorkspace sampleTree

theorem straying_wrote :
    Wrote straying.w.tree (leaves (straying.build straying.w)).tree ["x.js"] := by
  decide +kernel

theorem straying_plain : straying.w.tree.Plain := plain_of_isDated (by decide +kernel)

theorem build_writes_target_of_straying :
    ∃ q, Target straying.toolchain.compiler straying.o straying.source
        (straying.toolchain.toPlace straying.o straying.source straying.w)
        (straying.w.since (leaves (straying.build straying.w))) q ∧
      q.Strays ∧ ["x.js"] = keyOf (straying.o.outputDir.join q) := by
  have hobedient : straying.toolchain.compiler.Obedient := Copying.obedient _ _
  have hcases := build_writes_inside hobedient straying_plain straying_wrote
  rcases hcases with ⟨path, ⟨⟩, -⟩ | hinside | hstrays
  · exact absurd hinside (by decide)
  · exact hstrays

/-- A build with valid options writes a file outside its output directory. -/
theorem build_writes_outside :
    straying.o.validate.isOk = true ∧ straying.w.tree.Plain ∧
      Wrote straying.w.tree (leaves (straying.build straying.w)).tree ["x.js"] ∧
      straying.o.outputTo = none ∧ ¬ Inside straying.o.outputDir ["x.js"] :=
  ⟨by decide, straying_plain, straying_wrote, rfl, by decide⟩

end ScriptBuild.Toolchain
