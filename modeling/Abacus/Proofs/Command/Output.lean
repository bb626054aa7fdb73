import Abacus.Proofs.Command.Agreement
import Abacus.Proofs.Files.Replacing

/-!
# Listings written to a file

A listing that is written to a path gets there by way of a second file.  The command ends with code 0 exactly when the
source was read and listed and the path was replaced.

* `Command.listing_touches_only_target`: what a listing that was written changes, and by way of which name;
* `Command.failed_listing_leaves`: what a failed one changes, which is nothing, or one file more.
-/

namespace Abacus

namespace Command

open FileTree

/-! ## Carrying out the command -/

section Run

variable (s : Settings) (t : FileTree) (stdin : ByteArray) (userFilter : Option String) (elapsed : String)
  (input : Input) (out listing : String)

/-- The console changes only what is printed. -/
theorem runIn_task (task : Task) : ∃ printed, (Request.task s task).runIn t stdin userFilter elapsed =
    (⟨((perform (world stdin elapsed) (console userFilter s).1 (interpreterOptions s) task).run t).1.code, printed⟩,
      ((perform (world stdin elapsed) (console userFilter s).1 (interpreterOptions s) task).run t).2) :=
  ⟨_, rfl⟩

theorem run_writeListing (c : Console) : ∃ printed,
    (writeListing (world stdin elapsed) c listing (some out)).run t =
      (⟨match (t.replace (.ofText out) listing.toUTF8).1 with | .ok () => 0 | .error _ => 1, printed⟩,
        (t.replace (.ofText out) listing.toUTF8).2) := by
  have replaced : (replaceFile (world stdin elapsed).files (.ofText out) listing.toUTF8).run t =
      t.replace (.ofText out) listing.toUTF8 := rfl
  rw [writeListing, StateT.run_bind, replaced]
  obtain ⟨result, after⟩ := t.replace (.ofText out) listing.toUTF8
  cases result <;> exact ⟨_, rfl⟩

/-- What a listing to a path leaves. -/
theorem runIn_disasm_to : ∃ printed,
    (Request.task s (.disasm input (some out))).runIn t stdin userFilter elapsed =
      match input.contents t stdin with
      | .error _ => (⟨unreadableCode, printed⟩, t)
      | .ok source =>
        match listingOf source input.label with
        | .error _ => (⟨Outcome.compileError.exitCode, printed⟩, t)
        | .ok listing =>
          (⟨match (t.replace (.ofText out) listing.toUTF8).1 with | .ok () => 0 | .error _ => 1, printed⟩,
            (t.replace (.ofText out) listing.toUTF8).2) := by
  obtain ⟨printed, ran⟩ := runIn_task s t stdin userFilter elapsed (.disasm input (some out))
  refine ⟨printed, ran.trans ?_⟩
  rw [perform, disasm, run_withSource]
  cases input.contents t stdin with
  | error e => rfl
  | ok source =>
    simp only
    cases listingOf source input.label with
    | error ds => rfl
    | ok listing =>
      obtain ⟨_, wrote⟩ := run_writeListing t stdin elapsed out listing (console userFilter s).1
      simp only [StateT.run_bind, wrote]
      rfl

end Run

variable {s : Settings} {t : FileTree} {stdin : ByteArray} {userFilter : Option String} {elapsed : String}
  {input : Input} {out source listing : String}

/-- **A listing to a path succeeds** exactly when the source is read and listed, the second file can be made and the path
can hold it. -/
theorem code_eq_zero_iff :
    ((Request.task s (.disasm input (some out))).runIn t stdin userFilter elapsed).1.code = 0 ↔
      ∃ source listing, input.contents t stdin = .ok source ∧ listingOf source input.label = .ok listing ∧
        (∃ base number dir, t.Prepared (.ofText out) base number dir) ∧ t.Holds (.ofText out) := by
  obtain ⟨printed, ran⟩ := runIn_disasm_to s t stdin userFilter elapsed input out
  rw [ran]
  cases input.contents t stdin with
  | error e => simp [unreadableCode]
  | ok source =>
    cases lists : listingOf source input.label with
    | error ds => simp [lists, Outcome.exitCode]
    | ok listing =>
      simp only [lists, Except.ok.injEq, exists_and_left, exists_eq_left']
      rw [← replace_succeeds_iff listing.toUTF8]
      cases (t.replace (.ofText out) listing.toUTF8).1 <;> simp

theorem files_after (reads : input.contents t stdin = .ok source) (lists : listingOf source input.label = .ok listing) :
    ((Request.task s (.disasm input (some out))).runIn t stdin userFilter elapsed).2 =
      (t.replace (.ofText out) listing.toUTF8).2 := by
  obtain ⟨printed, ran⟩ := runIn_disasm_to s t stdin userFilter elapsed input out
  rw [ran, reads]
  simp only [lists]

theorem listingOf_of_compiles (compiles : (compile source .empty).diagnostics = []) (name : String) :
    listingOf source name = .ok ((compile source .empty).chunk.listing name) := by
  rw [listingOf, compiles]

/-! ## What is left -/

/-- **A listing that was written touches only its target.**  It is written whenever the source is read and listed, the
second file can be made and the path can hold it.  The path then holds the listing of the source that was read, also where
it or a second file was that source, and every other place of the tree is as it was.  The contents came by way of the
second file with the first number that is not in use, and the search for that number ends in every directory with fewer
than `2 ^ 32` entries. -/
theorem listing_touches_only_target (s : Settings) (t : FileTree) (stdin : ByteArray) (userFilter : Option String)
    (elapsed : String) (input : Input) (out : String) :
    let r := (Request.task s (.disasm input (some out))).runIn t stdin userFilter elapsed
    (r.1.code = 0 ↔ ∃ source listing, input.contents t stdin = .ok source ∧
      listingOf source input.label = .ok listing ∧
      (∃ base number dir, t.Prepared (.ofText out) base number dir) ∧ t.Holds (.ofText out)) ∧
    (r.1.code = 0 → ∃ source listing, input.contents t stdin = .ok source ∧
      listingOf source input.label = .ok listing ∧ t.Replaced r.2 (.ofText out) listing.toUTF8 ∧
      t.ByWayOfSecond r.2 (.ofText out) listing.toUTF8) ∧
    ∀ base, (Path.ofText out).fileName? = some base →
      (∀ dir, t.locate (Path.ofText out).directory = .ok dir → (t.listed dir).length < UInt32.size) →
      ∃ number, (firstUnused operations (.ofText out) base UInt32.size 0).run t = (some number, t) ∧
        t.IsFirstUnused (.ofText out) base number.toNat := by
  intro r
  refine ⟨code_eq_zero_iff, fun done => ?_, fun base named few => ?_⟩
  · obtain ⟨source, listing, reads, lists, ⟨base, number, dir, prepared⟩, holds⟩ := code_eq_zero_iff.mp done
    have files : r.2 = t.withMoved base number dir listing.toUTF8 := by
      rw [files_after reads lists, prepared.replace_of_holds _ holds]
    rw [files]
    exact ⟨source, listing, reads, lists, prepared.replaced holds _, prepared.byWayOfSecond holds _⟩
  · obtain ⟨number, found⟩ := exists_search base few
    exact ⟨number, by rw [run_firstUnused, found], search_eq_some_iff.mp found⟩

/-- An output that is the source itself, where the name of its first second file is in use. -/
theorem listing_touches_only_target_source :
    let t : FileTree := ⟨[(["P"], .file "1".toUTF8), (["P.tmp0"], .file "0".toUTF8)], []⟩
    let r := (Request.task {} (.disasm (.path "P") (some "P"))).runIn t ⟨#[]⟩ none "0"
    r.1.code = 0 ∧ t.IsFirstUnused (.ofText "P") "P" 1 ∧
      r.2.get? ["P"] = some (.file ((compile "1" .empty).chunk.listing "P").toUTF8) ∧
      r.2.get? ["P.tmp0"] = some (.file "0".toUTF8) := by
  intro t r
  have path : Path.ofText "P" = ⟨false, ["P"], false⟩ := by decide +kernel
  have lists : listingOf "1" "P" = .ok ((compile "1" .empty).chunk.listing "P") :=
    listingOf_of_compiles (by decide +kernel) "P"
  have first : t.IsFirstUnused (.ofText "P") "P" (1 : UInt32).toNat :=
    ⟨by decide +kernel, fun k lt => by
      obtain rfl : k = 0 := Nat.lt_one_iff.mp lt
      decide +kernel⟩
  have prepared : t.Prepared (.ofText "P") "P" 1 [] :=
    ⟨by decide +kernel, search_eq_some_iff.mpr first, by rw [path]; rfl, rfl⟩
  have holds : t.Holds (.ofText "P") := ⟨by decide +kernel, by decide +kernel, by rw [path]; exact nofun⟩
  have all := listing_touches_only_target {} t ⟨#[]⟩ none "0" (.path "P") "P"
  have done : r.1.code = 0 := all.1.mpr ⟨"1", _, rfl, lists, ⟨_, _, _, prepared⟩, holds⟩
  obtain ⟨source, listing, reads, lists', replaced, -⟩ := all.2.1 done
  obtain rfl : "1" = source := Except.ok.inj reads
  obtain rfl := Except.ok.inj (lists.symm.trans lists')
  obtain ⟨place, leads, there, others⟩ := replaced.frame
  rw [path] at leads
  obtain rfl : ["P"] = place := Except.ok.inj leads
  exact ⟨done, first, there, others _ (by decide)⟩

/-- **A failed listing leaves the files as they were, or one file more.**  All is as it was if the path can hold a file,
and also where no second file could be made.  Where one was made and the path cannot hold it, it is left behind, in a
place where nothing stood. -/
theorem failed_listing_leaves (reads : input.contents t stdin = .ok source)
    (lists : listingOf source input.label = .ok listing)
    (fails : ((Request.task s (.disasm input (some out))).runIn t stdin userFilter elapsed).1.code ≠ 0) :
    let after := ((Request.task s (.disasm input (some out))).runIn t stdin userFilter elapsed).2
    (t.Holds (.ofText out) → after = t) ∧
    ((∀ base number dir, ¬t.Prepared (.ofText out) base number dir) → after = t) ∧
    ∀ base number dir, t.Prepared (.ofText out) base number dir →
      t.get? (secondPlace base number dir) = none ∧
      after = t.put (secondPlace base number dir) (.file listing.toUTF8) := by
  intro after
  have files : after = (t.replace (.ofText out) listing.toUTF8).2 := files_after reads lists
  have unreplaced : ¬((∃ base number dir, t.Prepared (.ofText out) base number dir) ∧ t.Holds (.ofText out)) :=
    fun both => fails (code_eq_zero_iff.mpr ⟨source, listing, reads, lists, both⟩)
  have unprepared (none : ∀ base number dir, ¬t.Prepared (.ofText out) base number dir) : after = t := by
    obtain ⟨e, unchanged⟩ := replace_of_not_prepared listing.toUTF8 none
    rw [files, unchanged]
  refine ⟨fun holds => unprepared fun base number dir h => unreplaced ⟨⟨base, number, dir, h⟩, holds⟩, unprepared,
    fun base number dir h => ⟨h.get?_second, ?_⟩⟩
  obtain ⟨e, left⟩ := h.replace_of_not_holds listing.toUTF8 fun holds =>
    unreplaced ⟨⟨base, number, dir, h⟩, holds⟩
  rw [files, left]
  rfl

/-- An output that is a directory. -/
theorem failed_listing_leaves_second :
    let t : FileTree := ⟨[(["out"], .directory)], []⟩
    let r := (Request.task {} (.disasm .stdin (some "out"))).runIn t "1".toUTF8 none "0"
    r.1.code ≠ 0 ∧ t.get? ["out.tmp0"] = none ∧
      r.2 = t.put ["out.tmp0"] (.file ((compile "1" .empty).chunk.listing Input.stdin.label).toUTF8) := by
  intro t r
  have path : Path.ofText "out" = ⟨false, ["out"], false⟩ := by decide +kernel
  have reads : Input.stdin.contents t "1".toUTF8 = .ok "1" := rfl
  have lists : listingOf "1" Input.stdin.label = .ok ((compile "1" .empty).chunk.listing Input.stdin.label) :=
    listingOf_of_compiles (by decide +kernel) _
  have prepared : t.Prepared (.ofText "out") "out" 0 [] :=
    ⟨by decide +kernel, search_eq_some_iff.mpr ⟨by decide +kernel, nofun⟩, by rw [path]; rfl, rfl⟩
  have blocked : ¬t.Holds (.ofText "out") := fun holds => holds.free (by rw [path]; rfl)
  have fails : r.1.code ≠ 0 := by
    intro done
    obtain ⟨_, _, -, -, -, holds⟩ := code_eq_zero_iff.mp done
    exact blocked holds
  have left := (failed_listing_leaves reads lists fails).2.2 _ _ _ prepared
  exact ⟨fails, left.1, left.2⟩

end Command

end Abacus
