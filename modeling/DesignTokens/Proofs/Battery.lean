import DesignTokens.CommandLine.Run
import DesignTokens.Proofs.Jobs

/-!
# The report on all checks

The report puts the results of the checks in the order of their status. Nothing is lost on the way, and the counts, the
test for failures and the exit code all say what the single checks say.
-/

namespace DesignTokens

/-! ## Sorting by status -/

namespace ContractReport

variable {now : Instant} {results : List CheckResult}

theorem perm_ofResults : (ofResults now results).results.Perm results := List.mergeSort_perm ..

theorem rank_le_trans (a b c : CheckResult) :
    decide (a.status.rank ≤ b.status.rank) = true → decide (b.status.rank ≤ c.status.rank) = true →
      decide (a.status.rank ≤ c.status.rank) = true := by
  simpa using Nat.le_trans

theorem rank_le_total (a b : CheckResult) :
    (decide (a.status.rank ≤ b.status.rank) || decide (b.status.rank ≤ a.status.rank)) = true := by
  simpa using Nat.le_total ..

theorem pairwise_ofResults :
    (ofResults now results).results.Pairwise fun a b => a.status.rank ≤ b.status.rank :=
  (List.pairwise_mergeSort rank_le_trans rank_le_total results).imp of_decide_eq_true

/-- The results of one status stay in their order. -/
theorem filter_ofResults (status : Status) :
    (ofResults now results).results.filter (·.status == status) = results.filter (·.status == status) := by
  have hsame : (results.filter (·.status == status)).Pairwise fun a b => decide (a.status.rank ≤ b.status.rank) := by
    refine List.pairwise_of_forall_mem_list fun a ha b hb => ?_
    have ha : a.status = status := by simpa using (List.mem_filter.1 ha).2
    have hb : b.status = status := by simpa using (List.mem_filter.1 hb).2
    simp [ha, hb]
  have hsub : (results.filter (·.status == status)).Sublist (ofResults now results).results :=
    List.sublist_mergeSort rank_le_trans rank_le_total hsame List.filter_sublist
  have hfilter := hsub.filter (·.status == status)
  rw [List.filter_filter, List.filter_congr (q := (·.status == status)) (by simp)] at hfilter
  exact (hfilter.eq_of_length (perm_ofResults.symm.filter _).length_eq).symm

/-! ## Counting -/

theorem summary_total (r : ContractReport) :
    r.summary.fail + r.summary.warn + r.summary.pass = r.results.length := by
  simp only [summary, count]
  induction r.results with
  | nil => rfl
  | cons result rest ih =>
      cases h : result.status <;> simp [h] <;> omega

theorem hasFailures_iff (r : ContractReport) : r.hasFailures = true ↔ ∃ result ∈ r.results, result.status = .fail := by
  simp [hasFailures]

theorem hasFailures_iff_summary (r : ContractReport) : r.hasFailures = true ↔ 0 < r.summary.fail := by
  simp [hasFailures, summary, count, List.countP_pos_iff]

end ContractReport

/-! ## The single checks -/

namespace Check

theorem mem_battery (check : Check) : check ∈ battery := by
  cases check <;> simp [battery]

theorem run_ne_nil (check : Check) (d : Disk) (root : Path) (layout : Layout) : check.run d root layout ≠ [] := by
  unfold run
  cases check with
  | executor | richtext | figure | siteConfig | contractDocument =>
      dsimp only
      split
      · exact List.cons_ne_nil _ _
      · exact List.cons_ne_nil _ _
  | stylesheets =>
      simp only [stylesheetResults]
      split
      · exact List.cons_ne_nil _ _
      · exact List.cons_ne_nil _ _

end Check

namespace Project

variable {p : Project} {now : Instant} {d : Disk}

/-! ## The report of a project -/

theorem perm_contractReport :
    (p.contractReport now d).results.Perm (Check.battery.flatMap fun check => check.run d p.root p.layout) :=
  ContractReport.perm_ofResults

theorem mem_contractReport {r : CheckResult} :
    r ∈ (p.contractReport now d).results ↔ ∃ check : Check, r ∈ check.run d p.root p.layout := by
  rw [perm_contractReport.mem_iff, List.mem_flatMap]
  exact ⟨fun ⟨check, _, hr⟩ => ⟨check, hr⟩, fun ⟨check, hr⟩ => ⟨check, check.mem_battery, hr⟩⟩

theorem filter_contractReport (status : Status) :
    (p.contractReport now d).results.filter (·.status == status) =
      Check.battery.flatMap fun check => (check.run d p.root p.layout).filter (·.status == status) := by
  rw [contractReport, ContractReport.filter_ofResults, checkResults, List.filter_flatMap]

theorem hasFailures_contractReport :
    (p.contractReport now d).hasFailures = true ↔
      ∃ check : Check, ∃ r ∈ check.run d p.root p.layout, r.status = .fail := by
  rw [ContractReport.hasFailures_iff]
  constructor
  · rintro ⟨r, hr, hfail⟩
    obtain ⟨check, hr⟩ := mem_contractReport.1 hr
    exact ⟨check, r, hr, hfail⟩
  · rintro ⟨check, r, hr, hfail⟩
    exact ⟨r, mem_contractReport.2 ⟨check, hr⟩, hfail⟩

/-! ## Writing the report -/

/-- The report cannot be written: its directory cannot be made, or the file cannot be written when it is there. -/
def CannotWrite (p : Project) (report : ContractReport) (d : Disk) : Prop :=
  let dir := p.root.join p.layout.reportDir
  (∃ flaw, (d.makeDirectories dir).2 = .error flaw) ∨
    (d.makeDirectories dir).2 = .ok () ∧
      ∃ flaw, (d.makeDirectories dir).1.write (dir.join reportFile) report.markdown.toUTF8 = .error flaw

variable {report : ContractReport}

theorem writeReport_of_cannotWrite (h : p.CannotWrite report d) :
    ∃ fault e, p.writeReport report d = (.error fault, e) := by
  rcases h with ⟨flaw, hmake⟩ | ⟨hmake, flaw, hwrite⟩
  · exact ⟨_, _, Job.bind_of_error (Job.makeDirectories_of_eq hmake)⟩
  · have hwritten := Job.writeText_of_error hwrite
    exact ⟨_, _, (Job.bind_of_ok (Job.makeDirectories_of_eq hmake)).trans (Job.bind_of_error hwritten)⟩

theorem writeReport_of_not_cannotWrite (h : ¬p.CannotWrite report d) :
    ∃ e, p.writeReport report d = (.ok (p.layout.reportDir.join reportFile), e) := by
  simp only [CannotWrite, not_or, not_exists, not_and] at h
  obtain ⟨hmake, hwrite⟩ := h
  cases hmade : (d.makeDirectories (p.root.join p.layout.reportDir)).2 with
  | error flaw => exact absurd hmade (hmake flaw)
  | ok _ =>
      cases hwritten : (d.makeDirectories (p.root.join p.layout.reportDir)).1.write
          ((p.root.join p.layout.reportDir).join reportFile) report.markdown.toUTF8 with
      | error flaw => exact absurd hwritten (hwrite hmade flaw)
      | ok e =>
          have hwritten := Job.writeText_of_ok hwritten
          exact ⟨e, (Job.bind_of_ok (Job.makeDirectories_of_eq hmade)).trans (Job.bind_of_ok hwritten)⟩

/-- The report is made from the disk as it is before anything is written. -/
theorem check_eq (p : Project) (now : Instant) (d : Disk) :
    p.check now d =
      (p.writeReport (p.contractReport now d) >>= fun path => pure (path, p.contractReport now d)) d :=
  Job.bind_of_ok (Job.inspect_of_eq rfl)

end Project

namespace CommandLine

/-! ## The exit code -/

theorem exit_check (p : Project) (now : Instant) (d : Disk) :
    ((Command.check.run p now d).1.exit = 0 ∨ (Command.check.run p now d).1.exit = 1) ∧
      ((Command.check.run p now d).1.exit = 1 ↔
        p.CannotWrite (p.contractReport now d) d ∨
          ∃ check : Check, ∃ r ∈ check.run d p.root p.layout, r.status = .fail) := by
  rw [← @Project.hasFailures_contractReport p now d]
  by_cases hwrite : p.CannotWrite (p.contractReport now d) d
  · obtain ⟨fault, e, hreport⟩ := Project.writeReport_of_cannotWrite hwrite
    have hrun : p.check now d = _ := (p.check_eq now d).trans (Job.bind_of_error hreport)
    simp [Command.run, report, hrun, hwrite, Outcome.fault]
  · obtain ⟨e, hreport⟩ := Project.writeReport_of_not_cannotWrite hwrite
    have hrun : p.check now d = (.ok (_, p.contractReport now d), e) :=
      (p.check_eq now d).trans (Job.bind_of_ok hreport)
    cases h : (p.contractReport now d).hasFailures <;>
      simp [Command.run, report, hrun, hwrite, reportOutcome, Outcome.result, h]

/-- The report has every result of every check as often as the checks have it, failures first, then warnings, then
passes, in the order of the checks within each status; no check is silent. The counts add up to the number of
results, the report has failures exactly if it counts some, and the command fails exactly if the report cannot be
written or some check fails. -/
theorem battery_reported (p : Project) (now : Instant) (d : Disk) :
    (p.contractReport now d).results.Perm (Check.battery.flatMap fun check => check.run d p.root p.layout) ∧
      ((p.contractReport now d).results.Pairwise fun a b => a.status.rank ≤ b.status.rank) ∧
      (∀ status, (p.contractReport now d).results.filter (·.status == status) =
        Check.battery.flatMap fun check => (check.run d p.root p.layout).filter (·.status == status)) ∧
      (∀ check : Check, ∃ r ∈ check.run d p.root p.layout, r ∈ (p.contractReport now d).results) ∧
      (p.contractReport now d).summary.fail + (p.contractReport now d).summary.warn +
        (p.contractReport now d).summary.pass = (p.contractReport now d).results.length ∧
      ((p.contractReport now d).hasFailures = true ↔ 0 < (p.contractReport now d).summary.fail) ∧
      ∀ args config, Invocation.ofArguments args = some ⟨p.root, config, .check⟩ →
        Layout.load d p.root config = .ok p.layout →
        ((run args now d).1.exit = 0 ∨ (run args now d).1.exit = 1) ∧
          ((run args now d).1.exit = 1 ↔
            p.CannotWrite (p.contractReport now d) d ∨
              ∃ check : Check, ∃ r ∈ check.run d p.root p.layout, r.status = .fail) := by
  refine ⟨Project.perm_contractReport, ContractReport.pairwise_ofResults, Project.filter_contractReport,
    fun check => ?_, (p.contractReport now d).summary_total, (p.contractReport now d).hasFailures_iff_summary,
    fun args config hargs hload => ?_⟩
  · obtain ⟨r, hr⟩ := List.exists_mem_of_ne_nil _ (check.run_ne_nil d p.root p.layout)
    exact ⟨r, hr, Project.mem_contractReport.2 ⟨check, hr⟩⟩
  · have hrun : run args now d = Command.check.run p now d := by simp only [run, hargs, hload]
    rw [hrun]
    exact exit_check p now d

/-- On an empty disk there is no executor. -/
theorem battery_reported_empty :
    (∃ r ∈ Check.executor.run (Disk.empty []) ⟨"."⟩ {}, r.status = .fail) ∧
      (run ["check"] ⟨0⟩ (Disk.empty [])).1.exit = 1 := by
  have hfail : ∃ r ∈ Check.executor.run (Disk.empty []) ⟨"."⟩ {}, r.status = .fail := by decide +kernel
  have hexit := (battery_reported ⟨⟨"."⟩, {}⟩ ⟨0⟩ (Disk.empty [])).2.2.2.2.2.2 ["check"] none (by decide +kernel)
    (by decide +kernel)
  exact ⟨hfail, hexit.2.2 (.inr ⟨.executor, hfail⟩)⟩

end CommandLine

end DesignTokens
