import PhraseGrammar.Proofs.ArtifactDocuments
import PhraseGrammar.Proofs.Idempotence
import PhraseGrammar.Proofs.Replacing
import PhraseGrammar.Publication

/-! What a publication does to the disk, and what can be read of it afterwards. -/

namespace PhraseGrammar

theorem Quantity.IsWritable.isFinite {q : Quantity Float} (writable : q.IsWritable) :
    q.IsFinite := by
  cases q with
  | count n | bound k => exact writable
  | cost c => exact (isSome_documentNumeral? c).symm.trans writable

namespace Grammar

section

variable {κ : Type} [Cost κ] {grammar : Grammar κ} {requireUsed : Bool}

theorem prepare_eq_ok {artifact : Artifact κ} :
    grammar.prepare requireUsed = .ok artifact ↔
      (∃ tally, grammar.derive.2 = .ok tally) ∧
        (requireUsed = true → grammar.derive.1.requireUsed = .ok ()) ∧
        grammar.derive.1.artifact = artifact := by
  unfold prepare
  rcases grammar.derive with ⟨derived, fault | tally⟩
  · simp [discard, bind, Except.bind, Functor.mapConst, Except.map]
  · cases requireUsed with
    | false => simp [discard, bind, Except.bind, Functor.mapConst, Except.map, pure, Except.pure]
    | true =>
      cases audited : derived.requireUsed <;>
        simp [audited, discard, bind, Except.bind, Functor.mapConst, Except.map, pure, Except.pure]

theorem prepare_of_derive {derived : Grammar κ} {tally : Tally}
    (h : grammar.derive = (derived, .ok tally)) (used : derived.requireUsed = .ok ()) :
    grammar.prepare true = .ok derived.artifact := by
  rw [prepare_eq_ok, h]
  exact ⟨⟨tally, rfl⟩, fun _ => used, rfl⟩

variable [WrittenCost κ] {settings : PublicationSettings} {disk after : Disk}

theorem publish_of_error {fault : Fault κ}
    (h : grammar.prepare settings.requireUsed = .error fault) (disk : Disk) :
    grammar.publish settings disk = (disk, .error fault) := by
  rw [publish, h]

theorem publish_of_ok {artifact : Artifact κ} {moved : Bool}
    (h : grammar.prepare settings.requireUsed = .ok artifact)
    (replaced : disk.replace settings.route (artifact.write settings.layout) = (after, moved)) :
    grammar.publish settings disk =
      (after, if moved then .ok ⟨artifact.ruleCount,
          (Artifact.load (κ := κ) disk settings.route).toOption.map (·.ruleCount)⟩
        else .error .storage) := by
  rw [publish, h]
  simp only [Artifact.store, replaced]
  cases moved <;> rfl

end

def rootSettings : PublicationSettings := { route := .ofName "g.json" }

section

variable {κ : Type} [Cost κ] [WrittenCost κ] {grammar : Grammar κ}
  {settings : PublicationSettings} {disk after : Disk} {counts : RuleCounts}

/-- A publication that succeeds leaves the text of the artifact in its place. -/
theorem publish_eq_ok (h : grammar.publish settings disk = (after, .ok counts)) :
    (∃ tally, grammar.derive.2 = .ok tally) ∧
      after.read? settings.route = some (grammar.derive.1.artifact.write settings.layout) ∧
      counts = ⟨grammar.derive.1.artifact.ruleCount,
        (Artifact.load (κ := κ) disk settings.route).toOption.map (·.ruleCount)⟩ := by
  cases prepared : grammar.prepare settings.requireUsed with
  | error fault =>
    rw [publish_of_error prepared] at h
    exact nomatch (Prod.mk.inj h).2
  | ok artifact =>
    obtain ⟨derived, -, rfl⟩ := prepare_eq_ok.mp prepared
    obtain ⟨left, moved, replaced⟩ : ∃ left moved, disk.replace settings.route
        (grammar.derive.1.artifact.write settings.layout) = (left, moved) := ⟨_, _, rfl⟩
    rw [publish_of_ok prepared replaced] at h
    obtain ⟨rfl, ok⟩ := Prod.mk.inj h
    cases moved with
    | false => exact nomatch ok
    | true => exact ⟨derived, Disk.read?_of_replace replaced, (Except.ok.inj ok).symm⟩

theorem load_of_publish (h : grammar.publish settings disk = (after, .ok counts)) :
    Artifact.load (κ := κ) after settings.route =
      Artifact.read (grammar.derive.1.artifact.write settings.layout) := by
  rw [Artifact.load, (publish_eq_ok h).2.1]

end

/-- An artifact that has been published is found in its place exactly when its numbers are finite
and it nests no more than 127 levels, and the next publication in that place finds the same number
of rules. The numerals of its costs are supposed to be read exactly. -/
theorem publish_load {grammar : Grammar Float} {settings : PublicationSettings} {disk after : Disk}
    {counts : RuleCounts} (published : grammar.publish settings disk = (after, .ok counts))
    (back : ∀ q ∈ grammar.derive.1.artifact.quantities, q.ReadsBack) :
    counts.current = grammar.derive.1.artifact.ruleCount ∧
      (Artifact.load after settings.route = .ok grammar.derive.1.artifact ↔
        (∀ q ∈ grammar.derive.1.artifact.quantities, q.IsFinite) ∧
          grammar.derive.1.artifact.toJson.depth ≤ 127) ∧
      ∀ (next : Grammar Float) (again : PublicationSettings) (final : Disk) (later : RuleCounts),
        again.route = settings.route → next.publish again after = (final, .ok later) →
          Artifact.load after settings.route = .ok grammar.derive.1.artifact →
            later.previous = some counts.current := by
  have current : counts.current = grammar.derive.1.artifact.ruleCount := by
    rw [(publish_eq_ok published).2.2]
  refine ⟨current, ⟨fun found => ?_, fun ⟨finite, shallow⟩ => ?_⟩,
    fun next again final later same republished found => ?_⟩
  · rw [load_of_publish published] at found
    obtain ⟨writable, shallow⟩ := Artifact.writable_of_read found
    exact ⟨fun q mem => (writable q mem).isFinite, shallow⟩
  · rw [load_of_publish published]
    exact Artifact.read_write_of_writable settings.layout
      (fun q mem => (finite q mem).isWritable) back shallow
  · rw [(publish_eq_ok republished).2.2, same, found, current]
    rfl

theorem publish_empty {grammar : Grammar Float} {artifact : Artifact Float}
    (prepared : grammar.prepare true = .ok artifact) :
    ∃ after, grammar.publish rootSettings .empty = (after, .ok ⟨artifact.ruleCount, none⟩) := by
  have led : Disk.empty.filePlace? (.ofName "g.json") = some ["g.json"] := by decide
  rcases Disk.replace_cases .empty (.ofName "g.json") (artifact.write .indented) with
    ⟨none, -⟩ | ⟨draft, -, ⟨none, -⟩ | ⟨path, -, same⟩⟩
  · exact nomatch none.symm.trans (by decide : _ = some ["g.json.tmp"])
  · exact nomatch none.symm.trans led
  · have nothing : (Artifact.load (κ := Float) .empty rootSettings.route).toOption = none := rfl
    have published : grammar.publish rootSettings .empty = _ := publish_of_ok prepared same
    rw [nothing] at published
    exact ⟨_, published⟩

theorem wordPair_prepare : wordPair.prepare true = .ok wordPair.transpose.1.artifact :=
  prepare_of_derive wordPair_derive (by decide +kernel)

/-- The two words in both orders are found again. -/
theorem wordPair_publish_load :
    ∃ after counts, wordPair.publish rootSettings .empty = (after, .ok counts) ∧
      Artifact.load after rootSettings.route = .ok wordPair.derive.1.artifact ∧
        counts.current = 4 := by
  obtain ⟨after, published⟩ := publish_empty wordPair_prepare
  have back : ∀ q ∈ wordPair.derive.1.artifact.quantities, q.ReadsBack := by
    rw [wordPair_derive]
    decide
  obtain ⟨current, found, -⟩ := publish_load published back
  refine ⟨after, _, published, found.mpr ?_, by decide⟩
  rw [wordPair_derive]
  decide

/-- A sentence of two words that may change places, at costs that have no finite sum. -/
def dearPair : Grammar Float :=
  run [.newSymbol ["first"], .newSymbol ["second"], .addRule ⟨2⟩ (.word (.ofLiteral "one")),
    .addRule ⟨3⟩ (.word (.ofLiteral "two")),
    .addRule .start (.phrase { PhraseRule.ofSymbols [⟨2⟩, ⟨3⟩] with
      cost := 1e308, transpositionCost := some 1e308 })]

theorem dearPair_derive :
    dearPair.derive = (dearPair.transpose.1, .ok ⟨0, 0, 0, 1, 1, true⟩) := by
  have collapsed : dearPair.IsCollapsed := by
    unfold IsCollapsed
    decide +kernel
  have transpositions : dearPair.transpose.2 = 1 := by decide +kernel
  rw [derive_of_uninsertable collapsed (by decide +kernel), transpositions]

theorem dearPair_prepare : dearPair.prepare true = .ok dearPair.transpose.1.artifact :=
  prepare_of_derive dearPair_derive (by decide +kernel)

/-- The sentence in the other order has an infinite cost, which is written as no number. Whatever is
published in its place finds nothing there. -/
theorem dearPair_publish_not_load :
    ∃ after counts, dearPair.publish rootSettings .empty = (after, .ok counts) ∧
      ∀ artifact : Artifact Float, Artifact.load after rootSettings.route ≠ .ok artifact := by
  obtain ⟨after, published⟩ := publish_empty dearPair_prepare
  have derived : dearPair.derive.1 = dearPair.transpose.1 := by rw [dearPair_derive]
  have unread : Reader.artifact (κ := Float) Reader.levels dearPair.transpose.1.artifact.toJson =
      none := by decide +kernel
  refine ⟨after, _, published, fun artifact found => ?_⟩
  have read := (load_of_publish published).symm.trans found
  rw [derived, Artifact.read_eq_ok, Artifact.write, Json.parse?_render (recovers_artifact.plain _),
    Option.bind_some, unread] at read
  cases read

end Grammar

end PhraseGrammar
