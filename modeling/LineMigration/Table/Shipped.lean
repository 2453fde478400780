import LineMigration.Table.Basic

/-!
# The shipped table

`Table.v3` takes a Jenkinsfile from version 2 of insights-pipeline-lib to version 3. The call
forms, which open a parenthesis, stand before the bare forms of the same name, as the bare key
occurs in the call form. `getFilesChanged` stands before `changedFiles`, whose text contains it.
The last entry puts its own key back: such a line counts as changed while its text stays.
-/

namespace LineMigration

/-- The replacements from version 2 to version 3 of the library, in their order. -/
def Table.v3 : Table := [
  .of "cancelPriorBuilds" "pipelineUtils.cancelPriorBuilds",
  .of "getFilesChanged" "gitUtils.getFilesChanged",
  .of "changedFiles" "gitUtils.getFilesChanged",
  .of "checkCoverage" "pythonUtils.checkCoverage",
  .of "checkOutRepo" "gitUtils.checkOutRepo",
  .of "deployHelpers" "deployUtils",
  .of "deployServiceSet" "deployUtils.deployServiceSet",
  .of "deploymentPipeline" "execDeployPipeline",
  .of "ghNotify" "gitUtils.ghNotify",
  .of "openShift" "openShiftUtils",
  .of "pipelineVars.defaultUICloud" "pipelineVars.upshiftCloud",
  .of "pipelineVars.defaultUINameSpace" "pipelineVars.upshiftNameSpace",
  .of "pipfileComment.post" "pythonUtils.postPipfileComment",
  .of "pipfileComment.removeAll" "pythonUtils.removePipfileComments",
  .of "promoteImages" "deployUtils.promoteImages",
  .of "runBundleInstall" "rubyUtils.runBundleInstall",
  .of "runIfMasterOrPullReq" "pipelineUtils.runIfMasterOrPullReq",
  .of "runParallel" "pipelineUtils.runParallel",
  .of "runPipenvInstall" "pythonUtils.runPipenvInstall",
  .of "runPythonLintCheck" "pythonUtils.runLintCheck",
  .of "runSmokeTest" "execSmokeTest",
  .of "slackNotify" "slack.sendMsg",
  .of "stageWithContext" "gitUtils.stageWithContext",
  .of "triggeredByComment" "pipelineUtils.triggeredByComment",
  .of "waitForDeployment" "deployUtils.waitForDeployment",
  .of "withStatusContext.lint(" "gitUtils.withStatusContext(\"lint\", ",
  .of "withStatusContext.unitTest(" "gitUtils.withStatusContext(\"unittest\", ",
  .of "withStatusContext.integrationTest(" "gitUtils.withStatusContext(\"integrationtest\", ",
  .of "withStatusContext.coverage(" "gitUtils.withStatusContext(\"coverage\", ",
  .of "withStatusContext.pipInstall(" "gitUtils.withStatusContext(\"pipinstall\", ",
  .of "withStatusContext.bundleInstall(" "gitUtils.withStatusContext(\"bundleinstall\", ",
  .of "withStatusContext.swagger(" "gitUtils.withStatusContext(\"swagger\", ",
  .of "withStatusContext.smoke(" "gitUtils.withStatusContext(\"smoke\", ",
  .of "withStatusContext.dbMigrate(" "gitUtils.withStatusContext(\"dbmigrate\", ",
  .of "withStatusContext.artifacts(" "gitUtils.withStatusContext(\"artifacts\", ",
  .of "withStatusContext.waitForFrontend(" "gitUtils.withStatusContext(\"waitforfrontend\", ",
  .of "withStatusContext.custom(" "gitUtils.withStatusContext(",
  .of "withStatusContext.lint" "gitUtils.withStatusContext(\"lint\")",
  .of "withStatusContext.unitTest" "gitUtils.withStatusContext(\"unittest\")",
  .of "withStatusContext.integrationTest" "gitUtils.withStatusContext(\"integrationtest\")",
  .of "withStatusContext.coverage" "gitUtils.withStatusContext(\"coverage\")",
  .of "withStatusContext.pipInstall" "gitUtils.withStatusContext(\"pipinstall\")",
  .of "withStatusContext.bundleInstall" "gitUtils.withStatusContext(\"bundleinstall\")",
  .of "withStatusContext.swagger" "gitUtils.withStatusContext(\"swagger\")",
  .of "withStatusContext.smoke" "gitUtils.withStatusContext(\"smoke\")",
  .of "withStatusContext.dbMigrate" "gitUtils.withStatusContext(\"dbmigrate\")",
  .of "withStatusContext.artifacts" "gitUtils.withStatusContext(\"artifacts\")",
  .of "withStatusContext.waitForFrontend" "gitUtils.withStatusContext(\"waitforfrontend\")",
  .of "@Library(\"github.com/RedHatInsights/insights-pipeline-lib\")"
    "@Library(\"github.com/RedHatInsights/insights-pipeline-lib@v3\")",
  .of "@Library('github.com/RedHatInsights/insights-pipeline-lib')"
    "@Library('github.com/RedHatInsights/insights-pipeline-lib')"
]

end LineMigration
