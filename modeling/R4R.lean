import R4R.Lib.Chains
import R4R.Lib.Except
import R4R.Lib.Emplace
import R4R.Lib.Loops
import R4R.Path
import R4R.Lib.PrefixMap
import R4R.RpkgDatabase
import R4R.DfsVisit
import R4R.InstallationPlan
import R4R.Lib.JsonText
import R4R.EscapeCmdArg
import R4R.Dockerfile
import R4R.Curl
import R4R.CurlRun
import R4R.Lib.Runs
import R4R.Ptrace
import R4R.SyscallMonitor
import R4R.SyscallMonitorRuns
import R4R.FileSystemTrie
import R4R.PackageFiles
import R4R.Lib.Lines
import R4R.ManifestFormat
import R4R.ManifestSection
import R4R.ManifestRoundTrip
import R4R.FileTracer
import R4R.Lib.Interleaving
import R4R.FileTracerRuns
import R4R.FileTracerHandlers
import R4R.PidReuse
import R4R.ExistedBefore
import R4R.ExistedBeforeRuns
import R4R.SubPath
import R4R.DockerfileCopy
import R4R.Lib.InstructionText
import R4R.DockerfileEnv
import R4R.SignalDelivery
import R4R.DpkgDatabase
import R4R.SystemDependencies
import R4R.Lib.WorkList
import R4R.SymlinkResolver
import R4R.IgnoreFileMap
import R4R.Resolvers
import R4R.ResolverRuns
import R4R.TracedSymlinks
import R4R.Lib.Delimited
import R4R.Util
import R4R.DefaultImageFiles
import R4R.Lib.Ensures
import R4R.ArgumentParser
import R4R.CommandLine
import R4R.ImageCache
import R4R.RpkgParse
import R4R.RpkgTable
import R4R.Lib.FileTree
import R4R.PathLookup
import R4R.ResolvePath
import R4R.Json
import R4R.JsonGrammar
import R4R.JsonNumber
import R4R.JsonUnambiguous
import R4R.JsonParse
import R4R.JsonRoundTrip
import R4R.JsonConformance
import R4R.ManifestRewrite
import R4R.CommandOutput
import R4R.LinkedFiles
import R4R.RootSymlinks
import R4R.PathJoin
import R4R.FileSystemTrieIterator
import R4R.FileSystemTrieCopy
import R4R.AliasSoundness
import R4R.ArchiveFiles
import R4R.RootLinks
import R4R.AliasClosure
import R4R.AliasOrder
import R4R.StringSplit
import R4R.PackageClosure
import R4R.InstallRPackageBuilder
import R4R.OptionPart
import R4R.OptionSpelling
import R4R.OptionLookup
import R4R.MonitorReturn
import R4R.Lib.Scoped
import R4R.ProcessTracer
import R4R.ReadString
import R4R.TraceeMemory
import R4R.CopyScripts
import R4R.PackageLists
import R4R.ResultFiles
import R4R.Lib.ShellText
import R4R.ScriptQuoting
import R4R.Lib.MakeText
import R4R.Makefile
import R4R.FileSystemTrieSize
import R4R.FileSystemTrieAssign
import R4R.DpkgList
import R4R.JsonQuery
import R4R.ImageBlacklist
import R4R.PrefixedOstream
import R4R.Lib.InstructionList
import R4R.DockerfileText
import R4R.Lib.RText
import R4R.Lib.ShellJobs
import R4R.InstallScript
import R4R.Lib.Assignments
import R4R.CaptureEnvironment
import R4R.DockerfileRun
import R4R.ImageConfig
import R4R.Lib.ShellCommands
import R4R.ImageBuild
import R4R.Reproducible
import R4R.Pipeline
import R4R.PipelineAccounts
import R4R.SignalGroup
import R4R.TracedPaths
import R4R.ArchivedPaths
import R4R.CurlResponses
import R4R.SystemRequirements
